import ForthElf.Proofs.Steps

/-!
# Compilations

A program is compiled item by item, and then ended.

* `Compiler.after options tokens k` — the compiler behind the first `k` items of a program;
* `Compilation` — a program that compiles, with `Compilation.state` and `Compilation.offset` behind each of its items;
* `Compilation.compiled` — from one item to the next;
* `Compilation.built` — the code is that of the last state with the end of the main program.
-/

namespace ForthElf

namespace Compiler

/-- The state in which an action ends. -/
def stateOf {α : Type} : EStateM.Result Error Compiler α → Compiler
  | .ok _ s => s
  | .error _ s => s

def error? {α : Type} : EStateM.Result Error Compiler α → Option Error
  | .ok _ _ => none
  | .error e _ => some e

theorem eq_ok_of_error? {r : EStateM.Result Error Compiler Unit} (h : error? r = none) : r = .ok () (stateOf r) := by
  cases r with
  | ok _ s => rfl
  | error e s => cases h

theorem eq_error_of_error? {α : Type} {r : EStateM.Result Error Compiler α} {e : Error} (h : error? r = some e) :
    r = .error e (stateOf r) := by
  cases r with
  | ok a s => cases h
  | error e' s =>
    cases h
    rfl

/-- The state before the first item: the headers of the program are announced. -/
def announced (options : Options) (tokens : List Token) : Compiler :=
  stateOf (announceHeaders tokens (initial options))

/-- The compiler behind the first `k` items of a program. -/
def after (options : Options) (tokens : List Token) (k : Nat) : Compiler :=
  stateOf (((items tokens).take k).forM compileItem (announced options tokens))

theorem foldl_announce (headers : List Header) (f : ForwardCalls) :
    headers.foldl ForwardCalls.announce f = { f with headers := f.headers ++ headers } := by
  induction headers generalizing f with
  | nil => simp
  | cons header headers ih => simp [ih, ForwardCalls.announce]

/-- At the start the code is the number printing routine, and nothing but the headers is known. -/
theorem announced_eq (options : Options) (tokens : List Token) :
    announced options tokens =
      { initial options with
        forward := ⟨if options.forwardRefs then (items tokens).filterMap Item.header? else [], []⟩ } := by
  show (if options.forwardRefs then _ else initial options) = _
  cases options.forwardRefs with
  | true =>
    rw [foldl_announce, headersFrom_eq_filterMap]
    rfl
  | false => rfl

theorem stateOf_of_ok {α : Type} {r : EStateM.Result Error Compiler α} {a : α} {s : Compiler}
    (h : r = .ok a s) : stateOf r = s := by
  rw [h, stateOf]

theorem forM_append_ok {a b : List Item} {s s' : Compiler} {u : PUnit}
    (h : (a ++ b).forM compileItem s = .ok u s') :
    ∃ t, a.forM compileItem s = .ok () t ∧ b.forM compileItem t = .ok () s' := by
  induction a generalizing s with
  | nil => exact ⟨s, rfl, h⟩
  | cons item a ih =>
    obtain ⟨_, t, hitem, h⟩ := bind_eq_ok.mp h
    obtain ⟨t', ha, hb⟩ := ih h
    exact ⟨t', bind_eq_ok.mpr ⟨_, t, hitem, ha⟩, hb⟩

theorem options_of_forM {s s' : Compiler} {front : List Item} (hrun : front.forM compileItem s = .ok () s') :
    s'.options = s.options := by
  induction front generalizing s with
  | nil =>
    cases hrun
    rfl
  | cons item front ih =>
    obtain ⟨_, t, hitem, hfront⟩ := bind_eq_ok.mp hrun
    rw [ih hfront, (compileItem_compiled hitem).options, options_ready]

theorem Compiled.warnings_grow {s s' : Compiler} {item : Item} (h : Compiled (s.ready item) item s') :
    s.warnings.toList <+: s'.warnings.toList := by
  have hwarnings : s'.warnings = ((s.ready item).countsAfter item).2.2.2 := congrArg (·.2.2.2) h.counts
  rw [hwarnings]
  cases item with
  | keyword keyword token index => cases keyword <;> simp [countsAfter]
  | word token index =>
    simp only [countsAfter]
    split <;> simp
  | _ => simp [countsAfter]

/-- A program may end when nothing is open. -/
theorem ensureComplete_eq_ok_iff {s : Compiler} :
    s.ensureComplete = .ok () ↔ s.current = none ∧ s.control = [] ∧ s.forward.waiting = [] := by
  have hfirst : s.forward.first? = none ↔ s.forward.waiting = [] := List.head?_eq_none_iff
  rw [← hfirst, ← ControlStack.ensureClosed_eq_ok_iff, ensureComplete]
  cases s.current with
  | some definition => simp
  | none =>
    cases s.control.ensureClosed with
    | error e => simp
    | ok _ => cases s.forward.first? <;> simp

/-- The state behind the end of the main program. -/
def ended (s : Compiler) : Compiler :=
  { s.begun with toEmitter := s.begun.spill.emitBlock (exitBlock 0) }

theorem finish_eq_of_complete {s : Compiler} (h : s.ensureComplete = .ok ()) : finish s = build s.ended := by
  have hend : endProgram s = .ok () s.ended := by
    rw [endProgram, beginCode_bind_apply]
    rfl
  rw [finish, get_bind_apply, h]
  show EStateM.bind endProgram (fun _ => build) s = _
  rw [EStateM.bind, hend]

theorem complete_of_finish {s t : Compiler} {program : Program} (h : finish s = .ok program t) :
    s.ensureComplete = .ok () := by
  rw [finish, get_bind_apply, bind_eq_ok] at h
  obtain ⟨_, t, hrequire, -⟩ := h
  exact (require_ok hrequire).1

/-- The end of a program changes nothing but the code, the place of the top cell and the entry. -/
theorem ended_eq (s : Compiler) : ∃ log, s.ended =
    { s with toEmitter := s.begun.spill.emitBlock (exitBlock 0), entry := s.begun.entry, log := log } := by
  obtain ⟨log, hbegun⟩ := s.begun_eq
  refine ⟨log, ?_⟩
  rw [ended]
  generalize s.begun.spill.emitBlock (exitBlock 0) = e
  rw [hbegun]

theorem code_ended (s : Compiler) :
    s.ended.code = s.code.append (assemble (s.opening ++ s.begun.cache.state.spilling ++ exitBlock 0)) := by
  show (s.begun.spill.emitBlock (exitBlock 0)).code = _
  rw [Emitter.code_emitBlock, Emitter.code_spill, code_begun, CodeBuffer.append_append, CodeBuffer.append_append,
    assemble_append, assemble_append, List.append_assoc]

end Compiler

/-- A memory layout without fault. -/
structure Options.Sound (o : Options) : Prop where
  codeBase_aligned : o.codeBase.toNat % Options.pageSize = 0
  dataBase_aligned : o.dataBase.toNat % Options.pageSize = 0
  codeBase_lt : o.codeBase.toNat < o.dataBase.toNat
  stackSize_pos : 0 < o.stackSize.toNat
  stackSize_aligned : o.stackSize.toNat % 8 = 0
  stackTop_eq : o.stackTop.toNat = o.dataBase.toNat + o.stackSize.toNat
  stackTop_lt : o.stackTop.toNat < 2 ^ 31

theorem Options.sound_of_fault? {o : Options} (h : o.fault? = none) : o.Sound := by
  unfold fault? at h
  split at h
  · cases h
  split at h
  · cases h
  split at h
  · cases h
  split at h
  · cases h
  split at h
  · cases h
  split at h
  · cases h
  next hcode hdata hbelow hstack hspace hhigh =>
    have hbelow' : ¬o.dataBase.toNat ≤ o.codeBase.toNat := hbelow
    have hmax : maxAddress = 2 ^ 64 - 1 := rfl
    have htop : o.stackTop.toNat = o.dataBase.toNat + o.stackSize.toNat := by
      rw [stackTop, Nat.min_eq_left (Nat.le_of_not_lt hspace), UInt64.toNat_ofNat_of_lt']
      show _ < 2 ^ 64
      omega
    have hsize : o.stackSize.toNat ≠ 0 := fun hzero => hstack (.inl (UInt64.toNat_inj.mp hzero))
    have haligned : o.stackSize.toNat % 8 = 0 :=
      Decidable.byContradiction fun hodd => hstack (.inr hodd)
    exact ⟨by simpa using hcode, by simpa using hdata, by omega, by omega, haligned, htop, by omega⟩

open Compiler

/-- A program that compiles. -/
structure Compilation where
  options : Options
  tokens : List Token
  program : Program
  /-- The compiler when the file is built. -/
  final : Compiler
  valid : options.fault? = none
  ok : compileProgram tokens (initial options) = .ok program final

/-- The answer of an action, without the state in which it ends. -/
def answer {α : Type} : EStateM.Result Error Compiler α → Except Error α
  | .ok a _ => .ok a
  | .error e _ => .error e

theorem result_runFrom {α : Type} (s : Compiler) (action : Compile α) :
    (s.runFrom action).result = answer (action s) := by
  unfold runFrom
  cases action s <;> rfl

theorem compile_eq (source : String) (options : Options) :
    compile source options =
      match tokenize source with
      | .error e => .error e
      | .ok tokens =>
        match options.fault? with
        | some fault => .error (.invalidOptions fault)
        | none => answer (compileProgram tokens (initial options)) := by
  unfold compile compileLogged
  cases tokenize source with
  | error e => rfl
  | ok tokens =>
    unfold start Options.validate
    cases options.fault? with
    | some fault => rfl
    | none => exact result_runFrom (initial options) (compileProgram tokens)

/-- A source text that compiles is a compilation of its tokens. -/
theorem exists_compilation {source : String} {options : Options} {program : Program}
    (h : compile source options = .ok program) :
    ∃ c : Compilation, c.options = options ∧ c.program = program ∧ tokenize source = .ok c.tokens := by
  rw [compile_eq] at h
  cases htokens : tokenize source with
  | error e =>
    rw [htokens] at h
    cases h
  | ok tokens =>
    rw [htokens] at h
    cases hvalid : options.fault? with
    | some fault =>
      rw [hvalid] at h
      cases h
    | none =>
      simp only [hvalid] at h
      cases hok : compileProgram tokens (initial options) with
      | ok program' final =>
        rw [hok] at h
        cases h
        exact ⟨⟨options, tokens, program, final, hvalid, hok⟩, rfl, rfl, rfl⟩
      | error e t =>
        rw [hok] at h
        cases h

/-- A source text fails as a text, for its options, or as a program. -/
theorem error_of_compile {source : String} {options : Options} {e : Error} (h : compile source options = .error e) :
    tokenize source = .error e ∨ (∃ fault, e = .invalidOptions fault) ∨
      ∃ tokens t, tokenize source = .ok tokens ∧ compileProgram tokens (initial options) = .error e t := by
  rw [compile_eq] at h
  cases htokens : tokenize source with
  | error e' =>
    rw [htokens] at h
    cases h
    exact .inl rfl
  | ok tokens =>
    rw [htokens] at h
    cases hvalid : options.fault? with
    | some fault =>
      rw [hvalid] at h
      cases h
      exact .inr (.inl ⟨fault, rfl⟩)
    | none =>
      simp only [hvalid] at h
      cases hprogram : compileProgram tokens (initial options) with
      | ok program t =>
        rw [hprogram] at h
        cases h
      | error e' t =>
        rw [hprogram] at h
        cases h
        exact .inr (.inr ⟨tokens, t, rfl, hprogram⟩)

theorem exists_of_isOk {α : Type} {x : Except Error α} (h : x.isOk = true) : ∃ a, x = .ok a := by
  cases x with
  | ok a => exact ⟨a, rfl⟩
  | error e => cases h

theorem exists_of_any {α : Type} {x : Except Error α} {p : α → Bool} (h : x.toOption.any p = true) :
    ∃ a, x = .ok a ∧ p a = true := by
  cases x with
  | ok a => exact ⟨a, rfl, h⟩
  | error e => cases h

namespace Compilation

variable (c : Compilation)

def items : List Item :=
  ForthElf.items c.tokens

/-- The compiler behind the first `k` items. -/
def state (k : Nat) : Compiler :=
  after c.options c.tokens k

/-- The length of the code behind the first `k` items. -/
def offset (k : Nat) : Nat :=
  (c.state k).offset

def last : Compiler :=
  c.state c.items.length

/-! ### From item to item -/

theorem forM_take_drop {k : Nat} :
    (c.items.take k).forM compileItem (announced c.options c.tokens) = .ok () (c.state k) ∧
      ∃ s, (c.items.drop k).forM compileItem (c.state k) = .ok () s ∧ finish s = .ok c.program c.final := by
  obtain ⟨_, s, htokens, hfinish⟩ := bind_eq_ok.mp c.ok
  obtain ⟨_, t, hannounce, hitems⟩ := bind_eq_ok.mp htokens
  rw [compileFrom_eq_forM] at hitems
  have hstart : announced c.options c.tokens = t := stateOf_of_ok hannounce
  have hsplit : (c.items.take k ++ c.items.drop k).forM compileItem t = .ok () s := by
    rw [List.take_append_drop]
    exact hitems
  obtain ⟨t', htake, hdrop⟩ := forM_append_ok hsplit
  have hstate : c.state k = t' := by
    rw [state, after, hstart]
    exact stateOf_of_ok htake
  rw [hstart, hstate]
  exact ⟨htake, s, hdrop, hfinish⟩

theorem state_zero : c.state 0 = announced c.options c.tokens := rfl

theorem compileItem_state {k : Nat} {item : Item} (h : c.items[k]? = some item) :
    compileItem item (c.state k) = .ok () (c.state (k + 1)) := by
  have hnext := (c.forM_take_drop (k := k + 1)).1
  rw [List.take_add_one, h] at hnext
  obtain ⟨t, htake, hitem⟩ := forM_append_ok hnext
  rw [c.forM_take_drop.1] at htake
  cases htake
  obtain ⟨_, t, hitem, hend⟩ := bind_eq_ok.mp hitem
  cases hend
  exact hitem

/-- **From item to item.** -/
theorem compiled {k : Nat} {item : Item} (h : c.items[k]? = some item) :
    Compiled ((c.state k).ready item) item (c.state (k + 1)) :=
  compileItem_compiled (c.compileItem_state h)

/-- What holds at the start and is kept by every item holds behind every item. -/
theorem invariant {P : Nat → Compiler → Prop} (hstart : P 0 (c.state 0))
    (hstep : ∀ k item, c.items[k]? = some item → P k (c.state k) → P (k + 1) (c.state (k + 1))) {k : Nat}
    (hk : k ≤ c.items.length) : P k (c.state k) := by
  induction k with
  | zero => exact hstart
  | succ k ih => exact hstep k _ (List.getElem?_eq_getElem hk) (ih (Nat.le_of_succ_le hk))

theorem options_state {k : Nat} (hk : k ≤ c.items.length) : (c.state k).options = c.options := by
  refine c.invariant (P := fun _ s => s.options = c.options) ?_ (fun k item h ih => ?_) hk
  · rw [state_zero, announced_eq]
    rfl
  · rw [(c.compiled h).options, options_ready, ih]

theorem printNumber_state {k : Nat} (hk : k ≤ c.items.length) : (c.state k).printNumber = 0 := by
  refine c.invariant (P := fun _ s => s.printNumber = 0) ?_ (fun k item h ih => ?_) hk
  · rw [state_zero, announced_eq]
    rfl
  · rw [(c.compiled h).printNumber, printNumber_ready, ih]

theorem warnings_prefix {k n : Nat} (hkn : k ≤ n) (hn : n ≤ c.items.length) :
    (c.state k).warnings.toList <+: (c.state n).warnings.toList := by
  induction hkn with
  | refl => exact List.prefix_refl _
  | @step n hkn ih =>
    exact (ih (Nat.le_of_succ_le hn)).trans (c.compiled (List.getElem?_eq_getElem hn)).warnings_grow

/-! ### Offsets -/

/-- The instructions of item number `k`. -/
def block (k : Nat) : List Instruction :=
  ((c.items[k]?).map (c.state k).block).getD []

theorem block_eq {k : Nat} {item : Item} (h : c.items[k]? = some item) :
    c.block k = (c.state k).block item := by
  rw [block, h]
  rfl

theorem offset_succ {k : Nat} (hk : k < c.items.length) :
    c.offset (k + 1) = c.offset k + codeSize (c.block k) := by
  have h := List.getElem?_eq_getElem hk
  rw [c.block_eq h]
  exact (c.compiled h).offset_eq

theorem offset_mono {i k : Nat} (hik : i ≤ k) (hk : k ≤ c.items.length) : c.offset i ≤ c.offset k := by
  induction hik with
  | refl => exact Nat.le_refl _
  | step _ ih =>
    rw [c.offset_succ hk]
    exact Nat.le_trans (ih (Nat.le_of_succ_le hk)) (Nat.le_add_right _ _)

theorem eq_of_offset_le {i k p : Nat} (hi : i < c.items.length) (hk : k < c.items.length) (hip : c.offset i ≤ p)
    (hpi : p < c.offset (i + 1)) (hkp : c.offset k ≤ p) (hpk : p < c.offset (k + 1)) : i = k := by
  rcases Nat.lt_trichotomy i k with hlt | heq | hlt
  · have hle : c.offset (i + 1) ≤ c.offset k := c.offset_mono hlt (Nat.le_of_lt hk)
    omega
  · exact heq
  · have hle : c.offset (k + 1) ≤ c.offset i := c.offset_mono hlt (Nat.le_of_lt hi)
    omega

/-! ### The end -/

/-- What ends the main program. -/
def ending : List Instruction :=
  c.last.opening ++ c.last.begun.cache.state.spilling ++ exitBlock 0

theorem finish_last : finish c.last = .ok c.program c.final := by
  obtain ⟨-, s, hdrop, hfinish⟩ := c.forM_take_drop (k := c.items.length)
  rw [List.drop_length] at hdrop
  cases hdrop
  exact hfinish

theorem last_complete : c.last.current = none ∧ c.last.control = [] ∧ c.last.forward.waiting = [] :=
  ensureComplete_eq_ok_iff.mp (complete_of_finish c.finish_last)

theorem build_ok {s s' : Compiler} {program : Program} (h : build s = .ok program s') :
    program.code = s.code.bytes.toList ∧ program.entryOffset = s.entry.getD 0 ∧
      s.offset ≤ s.options.codeLimit headerSize ∧
      Layout.ofOptions s.options s.cells = .ok program.layout ∧ program.warnings = s.warnings.toList ∧
      program.labels = s.programLabels (s.entry.getD 0) ∧
      program.stats = s.stats.close s.cache.spills s.cache.fills s.offset := by
  rw [build, get_bind_apply] at h
  split at h
  · cases h
  · next hlimit =>
    simp only [count_bind_apply, bind_eq_ok (m := require _)] at h
    obtain ⟨layout, t, hrequire, h⟩ := h
    obtain ⟨hlayout, rfl⟩ := require_ok hrequire
    cases h
    exact ⟨rfl, rfl, Nat.le_of_not_lt hlimit, hlayout, rfl, rfl, rfl⟩

/-- Nothing is built if the code or the variables have no room. -/
theorem build_error {s s' : Compiler} {e : Error} (h : build s = .error e s') :
    s.options.codeLimit headerSize < s.offset ∧ e = .codeTooLarge s.offset (s.options.codeLimit headerSize) ∨
      s.offset ≤ s.options.codeLimit headerSize ∧ Layout.ofOptions s.options s.cells = .error e := by
  rw [build, get_bind_apply] at h
  split at h
  · next hlimit =>
    cases h
    exact .inl ⟨hlimit, rfl⟩
  · next hlimit =>
    simp only [count_bind_apply] at h
    refine .inr ⟨Nat.le_of_not_lt hlimit, ?_⟩
    cases hlayout : Layout.ofOptions s.options s.cells with
    | error e' =>
      rw [hlayout] at h
      cases h
      rfl
    | ok layout =>
      rw [hlayout] at h
      cases h

/-- **The code** is that of the last state with the end of the main program. -/
theorem built :
    c.program.code = c.last.code.bytes.toList ++ assemble c.ending ∧
      c.program.entryOffset = c.last.begun.entry.getD 0 ∧
      c.offset c.items.length + codeSize c.ending ≤ c.options.codeLimit headerSize ∧
      Layout.ofOptions c.options c.last.cells = .ok c.program.layout ∧
      c.program.warnings = c.last.warnings.toList := by
  have h := c.finish_last
  rw [finish_eq_of_complete (complete_of_finish h)] at h
  obtain ⟨hprogram, hentry, hlimit, hlayout, hwarnings, -⟩ := build_ok h
  have hcode : c.last.ended.code = c.last.code.append (assemble c.ending) := c.last.code_ended
  have hoffset : c.last.ended.offset = c.offset c.items.length + codeSize c.ending := Emitter.offset_of_code hcode
  obtain ⟨log, hended⟩ := c.last.ended_eq
  have hoptions : c.last.ended.options = c.options := by
    rw [← c.options_state (Nat.le_refl _), hended]
    rfl
  have hcells : c.last.ended.cells = c.last.cells := by rw [hended]
  have hwarned : c.last.ended.warnings = c.last.warnings := by rw [hended]
  have hstart : c.last.ended.entry = c.last.begun.entry := by rw [hended]
  rw [hoptions, hcells] at hlayout
  rw [hoptions] at hlimit
  rw [hwarned] at hwarnings
  rw [hstart] at hentry
  refine ⟨?_, hentry, ?_, hlayout, hwarnings⟩
  · rw [hprogram, hcode, CodeBuffer.append, Array.toList_append]
  · rw [← hoffset]
    exact hlimit

theorem sound : c.options.Sound :=
  Options.sound_of_fault? c.valid

/-- All code lies within 2 GiB. -/
theorem offset_lt {k : Nat} (hk : k ≤ c.items.length) : c.offset k + codeSize c.ending < 2 ^ 31 := by
  obtain ⟨-, -, hlimit, -⟩ := c.built
  have hmono := c.offset_mono hk (Nat.le_refl _)
  have htop := c.sound.stackTop_eq
  have hlt := c.sound.stackTop_lt
  rw [Options.codeLimit] at hlimit
  omega

end Compilation

end ForthElf
