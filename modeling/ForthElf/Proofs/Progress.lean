import ForthElf.Proofs.Sites

/-!
# Items that compile and items that fail

* `Compiler.Runs action s n` — from the state `s` the action succeeds, and patches `n` fields;
* `Compiler.runs_compileItem` — **progress**: in a consistent state with room for code, an item compiles if what it
  needs is open;
* `Compiler.compileItem_error` — **atomicity**: otherwise it fails, and nothing but the report of its token is left of
  it.
-/

namespace ForthElf

open Register

namespace Compiler

/-! ### Actions that succeed -/

/-- The action succeeds and patches `n` fields. -/
def Runs {α : Type} (m : Compile α) (s : Compiler) (n : Nat) : Prop :=
  ∃ a s', m s = .ok a s' ∧ s'.stats.fixups = s.stats.fixups + n

section Actions

variable {α β : Type} {s t : Compiler} {n : Nat}

theorem Runs.bind {m : Compile α} {f : α → Compile β} {a : α} {k : Nat} (hm : m s = .ok a t)
    (hfixups : t.stats.fixups = s.stats.fixups + k) (hf : Runs (f a) t n) : Runs (m >>= f) s (n + k) := by
  obtain ⟨b, s', hrun, hcount⟩ := hf
  exact ⟨b, s', bind_eq_ok.mpr ⟨a, t, hm, hrun⟩, by omega⟩

theorem Runs.quiet_bind {m : Compile α} {f : α → Compile β} {a : α} (hm : m s = .ok a t)
    (hfixups : t.stats.fixups = s.stats.fixups) (hf : Runs (f a) t n) : Runs (m >>= f) s n :=
  Runs.bind (k := 0) hm hfixups hf

theorem runs_get {f : Compiler → Compile β} (h : Runs (f s) s n) : Runs (get >>= f) s n :=
  h

theorem runs_here {f : Nat → Compile β} (h : Runs (f s.offset) s n) : Runs (here >>= f) s n :=
  h

theorem runs_modify {change : Compiler → Compiler} {f : PUnit → Compile β}
    (hfixups : (change s).stats.fixups = s.stats.fixups) (h : Runs (f ()) (change s) n) :
    Runs (modify change >>= f) s n :=
  Runs.quiet_bind (a := ()) rfl hfixups h

theorem runs_emitting {change : Emitter → Emitter} {f : Unit → Compile β}
    (h : Runs (f ()) { s with toEmitter := change s.toEmitter } n) : Runs (emitting change >>= f) s n :=
  h

theorem runs_placeholder {kind : Branch} {f : Nat → Compile β}
    (h : Runs (f (s.branchSite kind)) { s with toEmitter := s.toEmitter.placeholder kind } n) :
    Runs (placeholder kind >>= f) s n :=
  h

theorem runs_popFor {word : String} {pos : Position} {select : Construct → Option α} {f : α × Frame → Compile β}
    {frame : Frame} {rest : ControlStack} {a : α} (hcontrol : s.control = frame :: rest)
    (hselect : select frame.construct = some a) (h : Runs (f (a, frame)) { s with control := rest } n) :
    Runs (popFor word pos select >>= f) s n := by
  have hpop : popFor word pos select s = .ok (a, frame) { s with control := rest } := by
    rw [popFor, get_bind_apply, hcontrol, ControlStack.popFor, hselect]
    rfl
  exact Runs.quiet_bind hpop rfl h

theorem runs_checkMerge {expected : CacheState} {pos : Position} {f : Unit → Compile β}
    (hstate : s.cache.state = expected) (h : Runs (f ()) s n) : Runs (checkMerge expected pos >>= f) s n := by
  refine Runs.quiet_bind ?_ rfl h
  rw [checkMerge, get_bind_apply, if_neg (by rw [hstate]; exact not_not_intro rfl)]
  rfl

theorem runs_popBegin {word : String} {pos : Position} {f : Nat × CacheState → Compile β} {frame : Frame}
    {rest : ControlStack} {target : Nat} (hcontrol : s.control = frame :: rest)
    (hframe : frame.construct = .«begin» target)
    (h : Runs (f (target, frame.state)) { s with control := rest } n) : Runs (popBegin word pos >>= f) s n := by
  rw [popBegin, bind_assoc]
  exact runs_popFor hcontrol (by rw [hframe]) h

theorem runs_popDo {word : String} {pos : Position} {f : Nat × CacheState → Compile β} {frame : Frame}
    {rest : ControlStack} {body : Nat} (hcontrol : s.control = frame :: rest) (hframe : frame.construct = .«do» body)
    (h : Runs (f (body, frame.state)) { s with control := rest } n) : Runs (popDo word pos >>= f) s n := by
  rw [popDo, bind_assoc]
  exact runs_popFor hcontrol (by rw [hframe]) h

/-- A branch to code that is there. -/
theorem branchTo_eq (kind : Branch) {target : Nat} (hsize : s.offset + 6 ≤ 2 ^ 31) (htarget : target < 2 ^ 31) :
    emitter (Emitter.branchTo kind target) s =
      .ok () { s with toEmitter := s.toEmitter.emit (leading s.offset kind target) } := by
  have hopcode : kind.opcode.length ≤ 2 := by cases kind <;> simp
  have hend : s.toEmitter.offset + kind.opcode.length + 4 ≤ 2 ^ 31 := by omega
  obtain ⟨e, he⟩ := exists_branchTo hend htarget
  rw [emitter, he, Emitter.branchTo_ok he]

theorem runs_branchTo {kind : Branch} {target : Nat} {f : Unit → Compile β} (hsize : s.offset + 6 ≤ 2 ^ 31)
    (htarget : target < 2 ^ 31)
    (h : Runs (f ()) { s with toEmitter := s.toEmitter.emit (leading s.offset kind target) } n) :
    Runs (emitter (Emitter.branchTo kind target) >>= f) s n :=
  Runs.quiet_bind (branchTo_eq kind hsize htarget) rfl h

theorem runs_branchTo_last {kind : Branch} {target : Nat} (hsize : s.offset + 6 ≤ 2 ^ 31) (htarget : target < 2 ^ 31) :
    Runs (emitter (Emitter.branchTo kind target)) s 0 :=
  ⟨_, _, branchTo_eq kind hsize htarget, rfl⟩

theorem exists_patch {site target : Nat} (hsite : site + 4 ≤ s.offset) (hsize : s.offset ≤ 2 ^ 31)
    (htarget : target < 2 ^ 31) :
    ∃ code : CodeBuffer, code.offset = s.offset ∧
      patch site target s = .ok () { s with code := code, stats := s.stats.countFixup } := by
  obtain ⟨code, hcode⟩ := exists_patchRel32 hsite hsize htarget
  refine ⟨code, CodeBuffer.offset_of_patch (CodeBuffer.patch_of_patchRel32 hcode), ?_⟩
  rw [patch]
  refine bind_eq_ok.mpr ⟨(), { s with code := code }, ?_, rfl⟩
  rw [emitter, Emitter.patch, hcode]

theorem runs_patch {site target : Nat} {f : Unit → Compile β} (hsite : site + 4 ≤ s.offset) (hsize : s.offset ≤ 2 ^ 31)
    (htarget : target < 2 ^ 31)
    (h : ∀ code : CodeBuffer, code.offset = s.offset →
      Runs (f ()) { s with code := code, stats := s.stats.countFixup } n) :
    Runs (patch site target >>= f) s (n + 1) := by
  obtain ⟨code, hoffset, hpatch⟩ := exists_patch hsite hsize htarget
  exact Runs.bind hpatch rfl (h code hoffset)

theorem runs_patchHere {site : Nat} {f : Unit → Compile β} (hsite : site + 4 ≤ s.offset) (hsize : s.offset < 2 ^ 31)
    (h : ∀ (code : CodeBuffer) (log : Array Event),
      Runs (f ()) { s with code := code, stats := s.stats.countFixup, log := log } n) :
    Runs (patchHere site >>= f) s (n + 1) := by
  have hpatch : Runs (patch site s.offset >>= fun _ => note (.branchResolved site s.offset) >>= f) s (n + 1) :=
    runs_patch hsite (Nat.le_of_lt hsize) hsize fun code _ => h code _
  simp only [patchHere, bind_assoc]
  exact hpatch

theorem runs_patchHere_last {site : Nat} (hsite : site + 4 ≤ s.offset) (hsize : s.offset < 2 ^ 31) :
    Runs (patchHere site) s 1 := by
  rw [← bind_pure (patchHere site)]
  exact runs_patchHere (n := 0) hsite hsize fun _ _ => ⟨_, _, rfl, rfl⟩

theorem runs_beginCode {f : Unit → Compile β} (h : Runs (f ()) s.begun n) : Runs (beginCode >>= f) s n := by
  have hfixups : s.begun.stats.fixups = s.stats.fixups := by
    obtain ⟨log, hbegun⟩ := s.begun_eq
    rw [hbegun]
  unfold Runs at h ⊢
  rwa [beginCode_bind_apply, ← hfixups]

end Actions

/-! ### Sizes -/

theorem codeSize_spilling_le (state : CacheState) : codeSize state.spilling ≤ 7 := by
  cases state <;> decide

theorem codeSize_filling_le (state : CacheState) : codeSize state.filling ≤ 7 := by
  cases state <;> decide

theorem offset_placeholder_le (e : Emitter) (kind : Branch) :
    e.offset + 5 ≤ (e.placeholder kind).offset ∧ (e.placeholder kind).offset ≤ e.offset + 6 := by
  rw [Emitter.placeholder, Emitter.offset_emit, size_branch]
  cases kind <;> simp

/-! ### Keywords -/

/-- A state with room for the code of an item. -/
structure Roomy (s : Compiler) : Prop where
  consistent : s.Consistent
  offset_lt : s.offset < 2 ^ 31 - 4032

section Keywords

variable {s : Compiler} {token : Token} {construct : Construct}

theorem Roomy.exists_frame (h : s.Roomy) (hinner : s.innermost? = some construct) :
    ∃ frame rest, s.control = frame :: rest ∧ frame.construct = construct ∧ frame.state = .spilled ∧
      (∀ site ∈ construct.site?, site + 4 ≤ s.offset) ∧ ∀ target ∈ construct.target?, target ≤ s.offset := by
  obtain ⟨frame, rest, hcontrol, rfl⟩ := exists_of_innermost? hinner
  have hmem : frame ∈ s.control := by simp [hcontrol]
  refine ⟨frame, rest, hcontrol, rfl, h.consistent.merge frame hmem, fun site hsite => ?_,
    h.consistent.target_le frame hmem⟩
  refine h.consistent.site_lt (List.mem_append_left _ (List.mem_filterMap.mpr ⟨frame, hmem, hsite⟩))

theorem Roomy.offset_spill_lt (h : s.Roomy) : s.spill.offset < 2 ^ 31 - 4025 := by
  have hlt := h.offset_lt
  have hspill := codeSize_spilling_le s.cache.state
  rw [Emitter.offset_spill]
  omega

theorem Roomy.offset_fill_lt (h : s.Roomy) : s.fill.offset < 2 ^ 31 - 4025 := by
  have hlt := h.offset_lt
  have hfill := codeSize_filling_le s.cache.state
  rw [Emitter.offset_fill]
  omega

theorem runs_else (h : s.Roomy) (hadmits : s.AdmitsKeyword .«else») : Runs (compileElse token.pos) s 1 := by
  obtain ⟨site, hinner⟩ := hadmits
  obtain ⟨frame, rest, hcontrol, hframe, -, hsite, -⟩ := h.exists_frame hinner
  have hsite := hsite site rfl
  have hlt := h.offset_spill_lt
  have hle := Emitter.offset_le_spill s.toEmitter
  have hplaced := offset_placeholder_le s.spill .jump
  refine runs_popFor hcontrol (by rw [hframe]) <| runs_emitting <| runs_get <| runs_placeholder <|
    runs_patchHere ?_ ?_ fun code log => ?_
  · show site + 4 ≤ (s.spill.placeholder .jump).offset
    omega
  · show (s.spill.placeholder .jump).offset < 2 ^ 31
    omega
  · exact ⟨_, _, rfl, rfl⟩

theorem runs_then (h : s.Roomy) (hadmits : s.AdmitsKeyword .«then») : Runs (compileThen token.pos) s 1 := by
  obtain ⟨site, hinner⟩ := hadmits
  obtain ⟨frame, rest, hcontrol, hframe, hmerge, hsite⟩ : ∃ frame rest, s.control = frame :: rest ∧
      (frame.construct = .«if» site ∨ frame.construct = .«else» site) ∧ frame.state = .spilled ∧
      site + 4 ≤ s.offset := by
    rcases hinner with hinner | hinner <;>
      obtain ⟨frame, rest, hcontrol, hframe, hmerge, hsite, -⟩ := h.exists_frame hinner
    · exact ⟨frame, rest, hcontrol, .inl hframe, hmerge, hsite site rfl⟩
    · exact ⟨frame, rest, hcontrol, .inr hframe, hmerge, hsite site rfl⟩
  have hlt := h.offset_spill_lt
  have hle := Emitter.offset_le_spill s.toEmitter
  refine runs_popFor (a := site) hcontrol (by rcases hframe with hframe | hframe <;> rw [hframe]) <| runs_emitting <|
    runs_checkMerge ?_ (runs_patchHere_last ?_ ?_)
  · rw [hmerge]
    exact Emitter.state_spill _
  · show site + 4 ≤ s.spill.offset
    omega
  · show s.spill.offset < 2 ^ 31
    omega

theorem runs_until (h : s.Roomy) (hadmits : s.AdmitsKeyword .«until») : Runs (compileUntil token.pos) s 0 := by
  obtain ⟨target, hinner⟩ := hadmits
  obtain ⟨frame, rest, hcontrol, hframe, hmerge, -, htarget⟩ := h.exists_frame hinner
  have htarget := htarget target rfl
  have hlt := h.offset_lt
  have hfill := h.offset_fill_lt
  refine runs_popBegin hcontrol hframe <| runs_emitting <| runs_checkMerge hmerge.symm <|
    runs_branchTo_last ?_ (by omega)
  show ((s.fill.emit (.test rax rax)).setState .spilled).offset + 6 ≤ 2 ^ 31
  rw [Emitter.offset_setState, Emitter.offset_emit]
  have htest : (Instruction.test rax rax).size = 3 := rfl
  omega

theorem runs_again (h : s.Roomy) (hadmits : s.AdmitsKeyword .again) : Runs (compileAgain token.pos) s 0 := by
  obtain ⟨target, hinner⟩ := hadmits
  obtain ⟨frame, rest, hcontrol, hframe, hmerge, -, htarget⟩ := h.exists_frame hinner
  have htarget := htarget target rfl
  have hlt := h.offset_lt
  have hspill := h.offset_spill_lt
  refine runs_popBegin hcontrol hframe <| runs_emitting <| runs_checkMerge ?_ <| runs_branchTo_last ?_ (by omega)
  · rw [hmerge]
    exact Emitter.state_spill _
  · show s.spill.offset + 6 ≤ 2 ^ 31
    omega

theorem runs_while (hadmits : s.AdmitsKeyword .«while») : Runs (compileWhile token.pos) s 0 := by
  obtain ⟨target, hinner⟩ := hadmits
  obtain ⟨frame, rest, hcontrol, hframe⟩ := exists_of_innermost? hinner
  exact runs_popBegin hcontrol hframe <| runs_emitting <| runs_placeholder ⟨_, _, rfl, rfl⟩

theorem runs_repeat (h : s.Roomy) (hadmits : s.AdmitsKeyword .«repeat») : Runs (compileRepeat token.pos) s 1 := by
  obtain ⟨target, site, hinner⟩ := hadmits
  obtain ⟨frame, rest, hcontrol, hframe, hmerge, hsite, htarget⟩ := h.exists_frame hinner
  have hsite := hsite site rfl
  have htarget := htarget target rfl
  have hlt := h.offset_spill_lt
  have hle := Emitter.offset_le_spill s.toEmitter
  refine runs_popFor hcontrol (by rw [hframe]) <| runs_emitting <| runs_checkMerge ?_ <| runs_branchTo ?_ (by omega) <|
    runs_patchHere_last ?_ ?_
  · rw [hmerge]
    exact Emitter.state_spill _
  · show s.spill.offset + 6 ≤ 2 ^ 31
    omega
  · show site + 4 ≤ (s.spill.emit (leading s.spill.offset .jump target)).offset
    rw [Emitter.offset_emit]
    omega
  · show (s.spill.emit (leading s.spill.offset .jump target)).offset < 2 ^ 31
    rw [Emitter.offset_emit, size_leading, length_opcode_jump]
    omega

theorem runs_loop (h : s.Roomy) (hadmits : s.AdmitsKeyword .loop) : Runs (compileLoop token.pos) s 0 := by
  obtain ⟨body, hinner⟩ := hadmits
  obtain ⟨frame, rest, hcontrol, hframe, hmerge, -, htarget⟩ := h.exists_frame hinner
  have htarget := htarget body rfl
  have hlt := h.offset_lt
  have hspill := h.offset_spill_lt
  refine runs_popDo hcontrol hframe <| runs_emitting <| runs_checkMerge ?_ <| runs_emitting <|
    runs_branchTo ?_ (by omega) ⟨_, _, rfl, rfl⟩
  · rw [hmerge]
    exact Emitter.state_spill _
  · show (s.spill.emitBlock stepByOne).offset + 6 ≤ 2 ^ 31
    rw [Emitter.offset_emitBlock]
    have hstep : codeSize stepByOne ≤ 32 := by decide
    omega

theorem runs_plusLoop (h : s.Roomy) (hadmits : s.AdmitsKeyword .plusLoop) : Runs (compilePlusLoop token.pos) s 1 := by
  obtain ⟨body, hinner⟩ := hadmits
  obtain ⟨frame, rest, hcontrol, hframe, hmerge, -, htarget⟩ := h.exists_frame hinner
  have htarget := htarget body rfl
  have hlt := h.offset_lt
  have hfill := h.offset_fill_lt
  let e := (s.fill.setState .spilled).emitBlock stepByTop
  let inner := (e.placeholder (.jumpIf .overflow)).emitBlock compareLimit
  have he : e.offset ≤ s.fill.offset + 32 := by
    have hstep : codeSize stepByTop ≤ 32 := by decide
    rw [Emitter.offset_emitBlock, Emitter.offset_setState]
    omega
  have hinner : inner.offset = e.offset + 9 := by
    have hcompare : codeSize compareLimit = 3 := by decide
    rw [Emitter.offset_emitBlock, Emitter.placeholder, Emitter.offset_emit, size_branch, hcompare]
    rfl
  refine runs_popDo hcontrol hframe <| runs_emitting <| runs_checkMerge hmerge.symm <| runs_emitting <|
    runs_placeholder <| runs_emitting <| runs_branchTo ?_ (by omega) <| runs_patchHere ?_ ?_ fun code log => ?_
  · show inner.offset + 6 ≤ 2 ^ 31
    omega
  · show e.offset + 2 + 4 ≤ (inner.emit (leading inner.offset (.jumpIf .notEqual) body)).offset
    rw [Emitter.offset_emit]
    omega
  · show (inner.emit (leading inner.offset (.jumpIf .notEqual) body)).offset < 2 ^ 31
    rw [Emitter.offset_emit, size_leading, length_opcode_jumpIf]
    omega
  · exact ⟨_, _, rfl, rfl⟩

theorem runs_loopIndex {word : String} {depth : Nat} (hadmits : depth < s.control.openLoops) :
    Runs (compileLoopIndex word depth token.pos) s 0 := by
  refine runs_get ?_
  rw [if_neg (by omega)]
  exact ⟨_, _, rfl, rfl⟩

theorem runs_unloop (hadmits : s.AdmitsKeyword .unloop) : Runs (compileUnloop token.pos) s 0 := by
  have hloops : s.unlooped < s.control.openLoops := hadmits
  refine runs_get ?_
  rw [if_neg (by omega)]
  exact ⟨_, _, rfl, rfl⟩

theorem runs_exit (hadmits : s.AdmitsKeyword .exit) : Runs (compileExit token) s 0 := by
  have hcurrent : ¬s.current.isNone := by
    obtain ⟨definition, hdefinition⟩ := Option.isSome_iff_exists.mp hadmits
    simp [hdefinition]
  refine runs_get ?_
  rw [if_neg hcurrent]
  exact ⟨_, _, rfl, rfl⟩

theorem runs_recurse (h : s.Roomy) (hadmits : s.AdmitsKeyword .recurse) : Runs (compileRecurse token) s 0 := by
  obtain ⟨definition, hdefinition⟩ := Option.isSome_iff_exists.mp hadmits
  have htarget := h.consistent.current_le definition hdefinition
  have hlt := h.offset_lt
  have hspill := h.offset_spill_lt
  refine runs_get ?_
  rw [hdefinition]
  refine runs_emitting <| runs_branchTo ?_ (by omega) ⟨_, _, rfl, rfl⟩
  show s.spill.offset + 6 ≤ 2 ^ 31
  omega

theorem runs_semicolon (h : s.Roomy) (hadmits : s.AdmitsKeyword .semicolon) :
    Runs (endDefinition token.pos) s (s.current.bind (·.skipSite)).toList.length := by
  obtain ⟨hcurrent, hcontrol⟩ := hadmits
  obtain ⟨definition, hdefinition⟩ := Option.isSome_iff_exists.mp hcurrent
  have hlt := h.offset_spill_lt
  have hle := Emitter.offset_le_spill s.toEmitter
  have hret : (s.spill.emit .ret).offset = s.spill.offset + 1 := Emitter.offset_emit ..
  have hsite : ∀ site, definition.skipSite = some site → site + 4 ≤ s.offset := fun site hskip =>
    h.consistent.site_lt (by simp [openSites, hdefinition, hskip])
  rw [hdefinition, Option.bind_some]
  refine runs_get ?_
  rw [hdefinition]
  refine Runs.quiet_bind (m := require _) (a := ()) (t := s) (by rw [hcontrol]; rfl) rfl ?_
  -- A note about cells left on the return stack changes the log only.
  cases hskip : definition.skipSite with
  | none => by_cases hcells : 0 < s.returnCells <;> simp only [hcells, if_true, if_false] <;> exact ⟨_, _, rfl, rfl⟩
  | some site =>
    have hsite := hsite site hskip
    by_cases hcells : 0 < s.returnCells
    all_goals
      simp only [hcells, if_true, if_false, Runs, note_bind_apply, modify_bind_apply, emitting_bind_apply,
        here_bind_apply]
      refine runs_patch (n := 0) ?_ ?_ ?_ fun code _ => ?_
      · show site + 4 ≤ (s.spill.emit .ret).offset
        omega
      · show (s.spill.emit .ret).offset ≤ 2 ^ 31
        omega
      · show (s.spill.emit .ret).offset < 2 ^ 31
        omega
      · exact ⟨_, _, rfl, rfl⟩

end Keywords

/-! ### Definitions and words -/

section Items

variable {s : Compiler} {token : Token} {index : Nat}

theorem exists_resolveCalls {name : String} {target : Nat} {sites : List Nat}
    (hsites : ∀ site ∈ sites, site + 4 ≤ s.offset) (hsize : s.offset ≤ 2 ^ 31) (htarget : target < 2 ^ 31) :
    ∃ t, resolveCalls name target sites s = .ok () t ∧ t.stats.fixups = s.stats.fixups + sites.length := by
  induction sites generalizing s with
  | nil => exact ⟨s, rfl, rfl⟩
  | cons site sites ih =>
    obtain ⟨code, hoffset, hpatch⟩ := exists_patch (hsites site List.mem_cons_self) hsize htarget
    have hrest : ∀ site ∈ sites, site + 4 ≤ code.offset := fun site hsite => by
      rw [hoffset]
      exact hsites site (List.mem_cons_of_mem _ hsite)
    obtain ⟨t, ht, hfixups⟩ := ih (s := { s with
      code := code
      stats := s.stats.countFixup
      log := s.log.push (.callResolved site name target) }) hrest (by rw [← hoffset] at hsize; exact hsize)
    refine ⟨t, bind_eq_ok.mpr ⟨(), _, hpatch, ht⟩, ?_⟩
    rw [hfixups, List.length_cons]
    show s.stats.fixups + 1 + sites.length = _
    omega

theorem runs_resolveCalls {β : Type} {name : String} {target : Nat} {sites : List Nat} {f : Unit → Compile β}
    (hsites : ∀ site ∈ sites, site + 4 ≤ s.offset) (hsize : s.offset < 2 ^ 31) (htarget : target = s.offset)
    (h : ∀ t, Runs (f ()) t 0) : Runs (resolveCalls name target sites >>= f) s sites.length := by
  have hlt : target < 2 ^ 31 := by rwa [htarget]
  obtain ⟨t, ht, hfixups⟩ := exists_resolveCalls hsites (Nat.le_of_lt hsize) hlt
  rw [← Nat.zero_add sites.length]
  exact Runs.bind ht hfixups (h t)

theorem exists_noteOlderMeaning (name : Token) (s : Compiler) :
    ∃ log, noteOlderMeaning name s = .ok () { s with log := log } := by
  rw [noteOlderMeaning, get_bind_apply]
  cases s.dictionary.find? name.text with
  | some previous => exact ⟨_, rfl⟩
  | none =>
    dsimp only
    split <;> exact ⟨_, rfl⟩

theorem runs_define {name : Token} (h : s.Roomy) (hcurrent : s.current = none) (hcontrol : s.control = []) :
    Runs (beginDefinition name token.pos) s (s.forward.sitesOf name.text).length := by
  have hlt := h.offset_spill_lt
  have hle := Emitter.offset_le_spill s.toEmitter
  have hplaced := offset_placeholder_le s.spill .jump
  have hsites : ∀ site ∈ s.forward.sitesOf name.text, site + 4 ≤ s.offset := by
    intro site hsite
    obtain ⟨call, hcall, rfl⟩ := List.mem_map.mp hsite
    refine h.consistent.site_lt (List.mem_append_right _ (List.mem_append_right _ ?_))
    exact List.mem_map_of_mem (List.mem_filter.mp hcall).1
  refine runs_get ?_
  rw [if_neg (by simp [hcurrent, hcontrol])]
  simp only [Runs, skipDefinition_bind_apply]
  cases hentry : s.entry.isSome
  all_goals
    simp only [↓reduceIte, Bool.false_eq_true]
    refine runs_emitting <| Runs.quiet_bind (exists_noteOlderMeaning name _).choose_spec rfl <| runs_here <| runs_get <|
      runs_modify rfl <| runs_get <| runs_modify rfl <|
      runs_resolveCalls (fun site hsite => ?_) ?_ rfl fun t => ⟨_, _, rfl, rfl⟩
  · exact hsites site hsite
  · show s.offset < 2 ^ 31
    omega
  · have hsite := hsites site hsite
    show site + 4 ≤ (s.spill.placeholder .jump).offset
    omega
  · show (s.spill.placeholder .jump).offset < 2 ^ 31
    omega

theorem runs_variable {name : Token} (s : Compiler) : Runs (defineVariable name token.pos) s 0 := by
  refine runs_get ?_
  split <;> exact ⟨_, _, rfl, rfl⟩

theorem runs_number (token : Token) (value : BitVec 64) (s : Compiler) : Runs (compileNumber token (.cell value)) s 0 :=
  runs_beginCode <| runs_emitting ⟨_, _, rfl, rfl⟩

theorem runs_primitive {p : Primitive} (h : s.begun.Roomy) : Runs (compilePrimitive p) s 0 := by
  refine runs_beginCode <| runs_get ?_
  unfold Emitter.primitive
  cases p.recipe with
  | block entry body exit => exact ⟨_, _, rfl, rfl⟩
  | discard => exact ⟨_, _, rfl, rfl⟩
  | print =>
    have hlt := h.offset_spill_lt
    have hend : s.begun.spill.offset + 6 ≤ 2 ^ 31 := by omega
    have hroutine : s.begun.printNumber < 2 ^ 31 := by
      rw [h.consistent.printNumber_eq]
      decide
    have hcall := branchTo_eq .call (s := { s.begun with toEmitter := s.begun.spill }) hend hroutine
    exact Runs.quiet_bind hcall rfl ⟨_, _, rfl, rfl⟩

theorem runs_meaning {name : String} {entry : Entry} (h : s.begun.Roomy)
    (hfind : s.dictionary.find? name = some entry) : Runs (compileMeaning entry.meaning) s 0 := by
  have hlt := h.offset_lt
  have hspill := h.offset_spill_lt
  have hmem : entry ∈ s.begun.dictionary.entries := by
    obtain ⟨log, hbegun⟩ := s.begun_eq
    rw [hbegun]
    exact List.mem_of_find?_eq_some hfind
  have hdefined := h.consistent.defined_le entry hmem
  cases hmeaning : entry.meaning with
  | code offset =>
    have hoffset := hdefined offset hmeaning
    refine runs_beginCode <| runs_emitting <| runs_branchTo ?_ (by omega) ⟨_, _, rfl, rfl⟩
    show s.begun.spill.offset + 6 ≤ 2 ^ 31
    omega
  | cell address => exact runs_beginCode ⟨_, _, rfl, rfl⟩

theorem exists_entry_of_resolve {meaning : Meaning} (h : s.resolve token index = some (.defined meaning)) :
    ∃ entry, s.dictionary.find? token.text = some entry ∧ entry.meaning = meaning := by
  unfold resolve at h
  split at h
  · cases h
  · split at h
    · next entry hfind =>
      cases h
      exact ⟨entry, hfind, rfl⟩
    · split at h
      · cases h
      · split at h <;> cases h

theorem runs_word (h : s.begun.Roomy) (hadmits : s.Admits (.word token index)) :
    Runs (compileWord token index) s 0 := by
  obtain ⟨reference, hreference⟩ := Option.isSome_iff_exists.mp hadmits
  unfold Runs
  rw [compileWord_eq, hreference]
  cases reference with
  | primitive p => exact runs_primitive h
  | defined meaning =>
    obtain ⟨entry, hfind, rfl⟩ := exists_entry_of_resolve hreference
    exact runs_meaning h hfind
  | later => exact runs_beginCode <| runs_emitting <| runs_placeholder ⟨_, _, rfl, rfl⟩
  | nothing => exact ⟨_, _, rfl, rfl⟩

end Items

/-! ### Items -/

section Main

variable {s : Compiler} {item : Item}

theorem length_patched_ready : ((s.ready item).patched item).length = (s.patched item).length := by
  unfold patched
  split
  · rfl
  · rw [fixes_ready]

theorem Consistent.begun (h : s.Consistent) : s.begun.Consistent := by
  have hle : s.offset ≤ s.begun.offset := by
    rw [Emitter.offset_of_code s.code_begun]
    exact Nat.le_add_right _ _
  have hcode := s.code_begun
  obtain ⟨log, hbegun⟩ := s.begun_eq
  rw [hbegun] at hle hcode ⊢
  refine ⟨?_, h.nodup, h.merge, fun frame hframe target htarget => ?_, fun definition hdefinition => ?_,
    fun entry hentry offset hmeaning => ?_, h.printNumber_eq⟩
  · obtain ⟨block, hholds, hlinks⟩ := h.fields
    refine ⟨block ++ s.opening, ?_, fun site hsite => ?_⟩
    · rw [hcode]
      exact hholds.append s.opening
    · obtain ⟨kind, hlink⟩ := hlinks site hsite
      rw [links_append]
      exact ⟨kind, List.mem_append_left _ hlink⟩
  · exact Nat.le_trans (h.target_le frame hframe target htarget) hle
  · exact Nat.le_trans (h.current_le definition hdefinition) hle
  · exact Nat.le_trans (h.defined_le entry hentry offset hmeaning) hle

theorem Consistent.met (h : s.Consistent) (token : Token) : (s.met token).Consistent :=
  ⟨h.fields, h.nodup, h.merge, h.target_le, h.current_le, h.defined_le, h.printNumber_eq⟩

theorem codeSize_opening_le (s : Compiler) : codeSize s.opening ≤ 15 := by
  unfold opening
  split
  · have hle := Instruction.size_le (.movRegImm rbx s.options.stackTop.toBitVec)
    simpa [entryBlock] using hle
  · exact Nat.zero_le _

/-- The state in which an item is compiled has room for it. -/
theorem Consistent.roomy (h : s.Consistent) (hsize : s.offset < 2 ^ 31 - 4096) (token : Token) :
    (s.met token).Roomy ∧ (s.met token).begun.Roomy := by
  refine ⟨⟨h.met token, Nat.lt_of_lt_of_le hsize (by decide)⟩, (h.met token).begun, ?_⟩
  have hopening := (s.met token).codeSize_opening_le
  have hoffset : (s.met token).offset = s.offset := rfl
  rw [Emitter.offset_of_code (s.met token).code_begun]
  omega

/-- **Progress.** -/
theorem runs_compileItem (h : s.Consistent) (hsize : s.offset < 2 ^ 31 - 4096) (hadmits : s.Admits item) :
    Runs (compileItem item) s (s.patched item).length := by
  have hmet := fun token => (h.roomy hsize token).1
  have hbegun := fun token => (h.roomy hsize token).2
  -- A word that closes a construct with a field patches this field.
  have hone : ∀ {construct : Construct} {site : Nat}, s.innermost? = some construct → construct.site? = some site →
      (s.innermost?.bind Construct.site?).toList.length = 1 := by
    intro construct site hinner hsite
    rw [hinner, Option.bind_some, hsite]
    rfl
  cases item with
  | define colon name index => exact runs_define (hmet colon) hadmits.1 hadmits.2
  | «variable» word name index => exact runs_variable (s.met word)
  | number literal token index =>
    obtain ⟨value, rfl⟩ := hadmits
    exact runs_number token value (s.met token)
  | word token index => exact runs_word (hbegun token) hadmits
  | keyword k token index =>
    cases k with
    | colon => cases hadmits
    | «variable» => cases hadmits
    | semicolon => exact runs_semicolon (hmet token) hadmits
    | «if» => exact runs_beginCode (s := s.met token) <| runs_emitting <| runs_placeholder <| runs_get ⟨_, _, rfl, rfl⟩
    | «begin» => exact runs_beginCode (s := s.met token) <| runs_emitting <| runs_here <| runs_get ⟨_, _, rfl, rfl⟩
    | «do» => exact runs_beginCode (s := s.met token) <| runs_emitting <| runs_here <| runs_get ⟨_, _, rfl, rfl⟩
    | «else» =>
      obtain ⟨site, hinner⟩ := hadmits
      have hlength : (s.patched (.keyword .«else» token index)).length = 1 := hone hinner rfl
      rw [hlength]
      exact runs_else (hmet token) ⟨site, hinner⟩
    | «then» =>
      have hlength : (s.patched (.keyword .«then» token index)).length = 1 := by
        obtain ⟨site, hinner | hinner⟩ := hadmits <;> exact hone hinner rfl
      rw [hlength]
      exact runs_then (hmet token) hadmits
    | «repeat» =>
      obtain ⟨target, site, hinner⟩ := hadmits
      have hlength : (s.patched (.keyword .«repeat» token index)).length = 1 := hone hinner rfl
      rw [hlength]
      exact runs_repeat (hmet token) ⟨target, site, hinner⟩
    | «until» => exact runs_until (hmet token) hadmits
    | again => exact runs_again (hmet token) hadmits
    | «while» => exact runs_while (s := s.met token) hadmits
    | loop => exact runs_loop (hmet token) hadmits
    | plusLoop => exact runs_plusLoop (hmet token) hadmits
    | loopIndex => exact runs_loopIndex (s := s.met token) hadmits
    | outerLoopIndex => exact runs_loopIndex (s := s.met token) hadmits
    | unloop => exact runs_unloop (s := s.met token) hadmits
    | exit => exact runs_exit (s := s.met token) hadmits
    | recurse => exact runs_recurse (hmet token) hadmits

/-! ### Items that fail -/

theorem popFor_error {α β : Type} {word : String} {pos : Position} {select : Construct → Option α}
    {f : α × Frame → Compile β} (h : ∀ construct, s.innermost? = some construct → select construct = none) :
    ∃ e, (popFor word pos select >>= f) s = .error e s := by
  have hpop : ∃ e, popFor word pos select s = .error e s := by
    rw [popFor, get_bind_apply]
    cases hcontrol : s.control with
    | nil => exact ⟨_, rfl⟩
    | cons frame rest =>
      have hselect := h frame.construct (by rw [innermost?, hcontrol]; rfl)
      rw [ControlStack.popFor, hselect]
      exact ⟨_, rfl⟩
  obtain ⟨e, he⟩ := hpop
  refine ⟨e, ?_⟩
  show EStateM.bind (popFor word pos select) f s = _
  rw [EStateM.bind, he]

theorem popBegin_error {β : Type} {word : String} {pos : Position} {f : Nat × CacheState → Compile β}
    (h : ¬∃ target, s.innermost? = some (.«begin» target)) : ∃ e, (popBegin word pos >>= f) s = .error e s := by
  rw [popBegin, bind_assoc]
  refine popFor_error fun construct hinner => ?_
  cases construct with
  | «begin» target => exact absurd ⟨target, hinner⟩ h
  | _ => rfl

theorem popDo_error {β : Type} {word : String} {pos : Position} {f : Nat × CacheState → Compile β}
    (h : ¬∃ body, s.innermost? = some (.«do» body)) : ∃ e, (popDo word pos >>= f) s = .error e s := by
  rw [popDo, bind_assoc]
  refine popFor_error fun construct hinner => ?_
  cases construct with
  | «do» body => exact absurd ⟨body, hinner⟩ h
  | _ => rfl

theorem compileLoopIndex_error {word : String} {depth : Nat} {pos : Position} (h : ¬depth < s.control.openLoops) :
    ∃ e, compileLoopIndex word depth pos s = .error e s := by
  rw [compileLoopIndex, get_bind_apply, if_pos (by omega)]
  exact ⟨_, rfl⟩

theorem compileKeyword_error {k : Keyword} {token : Token} (hadmits : ¬s.AdmitsKeyword k) :
    ∃ e, compileKeyword token k s = .error e s := by
  cases k with
  | colon => exact ⟨_, rfl⟩
  | «variable» => exact ⟨_, rfl⟩
  | «if» => exact absurd trivial hadmits
  | «begin» => exact absurd trivial hadmits
  | «do» => exact absurd trivial hadmits
  | «else» =>
    refine popFor_error fun construct hinner => ?_
    cases construct with
    | «if» site => exact absurd ⟨site, hinner⟩ hadmits
    | _ => rfl
  | «then» =>
    refine popFor_error fun construct hinner => ?_
    cases construct with
    | «if» site => exact absurd ⟨site, .inl hinner⟩ hadmits
    | «else» site => exact absurd ⟨site, .inr hinner⟩ hadmits
    | _ => rfl
  | «repeat» =>
    refine popFor_error fun construct hinner => ?_
    cases construct with
    | «while» target site => exact absurd ⟨target, site, hinner⟩ hadmits
    | _ => rfl
  | «until» => exact popBegin_error hadmits
  | again => exact popBegin_error hadmits
  | «while» => exact popBegin_error hadmits
  | loop => exact popDo_error hadmits
  | plusLoop => exact popDo_error hadmits
  | loopIndex => exact compileLoopIndex_error hadmits
  | outerLoopIndex => exact compileLoopIndex_error hadmits
  | unloop =>
    have hloops : ¬s.unlooped < s.control.openLoops := hadmits
    rw [compileKeyword, compileUnloop, get_bind_apply, if_pos (by omega)]
    exact ⟨_, rfl⟩
  | exit =>
    rw [compileKeyword, compileExit, get_bind_apply, if_pos (by simpa [AdmitsKeyword] using hadmits)]
    exact ⟨_, rfl⟩
  | recurse =>
    have hcurrent : s.current = none := Option.not_isSome_iff_eq_none.mp hadmits
    rw [compileKeyword, compileRecurse, get_bind_apply, hcurrent]
    exact ⟨_, rfl⟩
  | semicolon =>
    rw [compileKeyword, endDefinition, get_bind_apply]
    cases hcurrent : s.current with
    | none => exact ⟨_, rfl⟩
    | some definition =>
      cases hcontrol : s.control with
      | nil => exact absurd ⟨by rw [hcurrent]; rfl, hcontrol⟩ hadmits
      | cons frame rest => exact ⟨_, rfl⟩

/-- **Atomicity.** -/
theorem compileItem_error (hadmits : ¬s.Admits item) : ∃ e, compileItem item s = .error e (s.met item.token) := by
  cases item with
  | define colon name index =>
    refine ⟨.nestedDefinition colon.pos, ?_⟩
    have hopen : (s.met colon).current.isSome ∨ (s.met colon).control ≠ [] := by
      by_cases hcurrent : s.current = none
      · exact .inr fun hcontrol => hadmits ⟨hcurrent, hcontrol⟩
      · exact .inl (Option.isSome_iff_ne_none.mpr hcurrent)
    rw [compileItem, meetToken_bind_apply, beginDefinition, get_bind_apply, if_pos hopen]
    rfl
  | «variable» word name index => exact absurd trivial hadmits
  | number literal token index =>
    cases literal with
    | cell value => exact absurd ⟨value, rfl⟩ hadmits
    | outOfRange => exact ⟨_, rfl⟩
  | word token index =>
    have hresolve : (s.met token).resolve token index = none := Option.not_isSome_iff_eq_none.mp hadmits
    rw [compileItem, meetToken_bind_apply, compileWord_eq, hresolve]
    exact ⟨_, rfl⟩
  | keyword k token index => exact compileKeyword_error (s := s.met token) hadmits

end Main

end Compiler

end ForthElf
