import ForthElf.Proofs.Atomicity
import ForthElf.Proofs.Grammar

/-!
# What compiles

Words without a meaning may be passed over, and no word may be called ahead of its definition.  Then whether a program
compiles depends on its outline alone.

* `Compiler.outline s` — which constructs are open;
* `Compiler.Compiled.stepItem`, `Compiler.admits_of_stepItem` — an item that compiles is read, and one that is read
  compiles;
* `compiles_iff_sentence` — **a list of tokens is compiled to a program if and only if it is a sentence**, an error
  comes as early as it can, and there are no dead ends.
-/

namespace ForthElf

def Construct.bracket : Construct → Bracket
  | .«if» _ => .«if»
  | .«else» _ => .«else»
  | .«begin» _ => .«begin»
  | .«while» _ _ => .«while»
  | .«do» _ => .«do»

namespace Outline

def stepItem (x : Outline) : Item → Option Outline
  | .define _ _ _ => x.define
  | .«variable» _ _ _ => some x
  | .keyword k _ _ => x.stepClass (.keyword k)
  | .number literal _ _ => x.stepClass (.number literal)
  | .word _ _ => x.stepClass .word

theorem stepItem_ofToken (x : Outline) (t : Token) (index : Nat) :
    x.stepItem (.ofToken t index) = x.stepClass t.class := by
  unfold Item.ofToken
  split <;> simp_all [stepItem]

theorem foldlM_itemsFrom (x : Outline) (index : Nat) (tokens : List Token) :
    (itemsFrom index tokens).foldlM stepItem x = x.read tokens := by
  fun_induction itemsFrom index tokens generalizing x with
  | case1 => rfl
  | case2 index t =>
    rw [List.foldlM_cons, stepItem_ofToken, read]
    exact Option.bind_fun_some _
  | case3 index t name rest hcolon ih =>
    rw [List.foldlM_cons, read_define hcolon]
    exact bind_congr fun y => ih y
  | case4 index t name rest hcolon hvariable ih =>
    rw [List.foldlM_cons, read_variable hvariable]
    exact ih x
  | case5 index t name rest hcolon hvariable ih =>
    rw [List.foldlM_cons, stepItem_ofToken, read_cons hcolon hvariable]
    exact bind_congr fun y => ih y

/-- A reader stops at a token that it refuses, or at a last token that has no name behind it. -/
theorem refuses_of_begins {x : Outline} {item : Item} {rest : List Token} (h : item.Begins rest)
    (hstep : x.stepItem item = none) :
    rest = [] ∧ (item.token.Is .colon ∨ item.token.Is .«variable») ∨ x.Refuses item.token := by
  cases h with
  | plain hcolon hvariable =>
    rw [stepItem_ofToken] at hstep
    rw [Item.token_ofToken]
    exact .inr (by rw [Refuses, if_neg hcolon]; exact ⟨hvariable, hstep⟩)
  | @last t index =>
    rw [stepItem_ofToken] at hstep
    rw [Item.token_ofToken]
    by_cases hcolon : t.class = .keyword .colon
    · exact .inl ⟨rfl, .inl hcolon⟩
    by_cases hvariable : t.class = .keyword .«variable»
    · exact .inl ⟨rfl, .inr hvariable⟩
    · exact .inr (by rw [Refuses, if_neg hcolon]; exact ⟨hvariable, hstep⟩)
  | define ht => exact .inr (by rw [Refuses, Item.token, if_pos ht]; exact hstep)
  | «variable» ht => cases hstep

/-- A colon and the word `variable` need a name. -/
theorem read_last_ne_some {x y z : Outline} {tokens : List Token} {t : Token} (h : x.read tokens = some y)
    (ht : t.Is .colon ∨ t.Is .«variable») : x.read (tokens ++ [t]) ≠ some z := by
  rw [read_append h, read]
  rcases ht with ht | ht
  · rw [show t.class = .keyword .colon from ht]
    exact (Option.some_ne_none z).symm
  · rw [show t.class = .keyword .«variable» from ht]
    exact (Option.some_ne_none z).symm

end Outline

namespace Compiler

/-- What a reader knows where a compiler is. -/
def outline (s : Compiler) : Outline where
  inside := s.current.isSome
  nest := s.control.map (·.construct.bracket)
  dropped := s.unlooped

section Steps

variable {s s' : Compiler} {item : Item}

theorem loops_outline (s : Compiler) : s.outline.loops = s.control.openLoops := by
  unfold Outline.loops outline ControlStack.openLoops
  rw [List.count, List.countP_map]
  congr 1
  funext frame
  cases hframe : frame.construct <;> simp [hframe, Construct.bracket, Construct.isLoop]

theorem outline_ready (s : Compiler) (item : Item) : (s.ready item).outline = s.outline := by
  simp [outline]

theorem Compiled.outline_eq (h : Compiled s item s') : s'.outline =
    ⟨(s.currentAfter item).isSome, (s.controlAfter item).map (·.construct.bracket), (s.countsAfter item).2.1⟩ := by
  rw [outline, h.current, h.control, ← h.counts]

theorem replacing_outline {construct : Construct} (h : s.innermost? = some construct) {kinds : List Bracket}
    (hkind : construct.bracket ∈ kinds) (new : List Bracket) :
    s.outline.replacing kinds new =
      some { s.outline with nest := new ++ s.control.tail.map (·.construct.bracket) } := by
  obtain ⟨frame, rest, hcontrol, rfl⟩ := exists_of_innermost? h
  rw [Outline.replacing, outline, hcontrol]
  exact if_pos hkind

theorem stepKeyword_of_compiled {k : Keyword} {token : Token} {index : Nat}
    (h : Compiled s (.keyword k token index) s') : s.outline.stepKeyword k = some s'.outline := by
  have hadmits : s.AdmitsKeyword k := h.admits
  rw [h.outline_eq]
  cases k with
  | colon | «variable» => cases hadmits
  | semicolon =>
    obtain ⟨hcurrent, hcontrol⟩ := hadmits
    have hclosed : s.outline.inside = true ∧ s.outline.nest = [] := ⟨hcurrent, by rw [outline, hcontrol]; rfl⟩
    refine (if_pos hclosed).trans ?_
    rw [controlAfter, hcontrol]
    rfl
  | «if» | «begin» | «do» => rfl
  | «else» =>
    obtain ⟨site, hinner⟩ := hadmits
    exact replacing_outline hinner (by simp [Construct.bracket]) _
  | «then» =>
    obtain ⟨site, hinner | hinner⟩ := hadmits <;> exact replacing_outline hinner (by simp [Construct.bracket]) _
  | «until» | again | «while» =>
    obtain ⟨target, hinner⟩ := hadmits
    exact replacing_outline hinner (by simp [Construct.bracket]) _
  | «repeat» =>
    obtain ⟨target, site, hinner⟩ := hadmits
    exact replacing_outline hinner (by simp [Construct.bracket]) _
  | loop | plusLoop =>
    obtain ⟨body, hinner⟩ := hadmits
    exact replacing_outline hinner (by simp [Construct.bracket]) _
  | loopIndex | outerLoopIndex | unloop =>
    have hloops := hadmits
    simp only [AdmitsKeyword, ← loops_outline] at hloops
    exact if_pos hloops
  | exit | recurse => exact if_pos hadmits

/-- **An item that compiles is read.** -/
theorem Compiled.stepItem (h : Compiled s item s') : s.outline.stepItem item = some s'.outline := by
  have hadmits := h.admits
  cases item with
  | define colon name index =>
    obtain ⟨hcurrent, hcontrol⟩ := hadmits
    have hclosed : s.outline.inside = false ∧ s.outline.nest = [] := by
      rw [outline, hcurrent, hcontrol]
      exact ⟨rfl, rfl⟩
    rw [h.outline_eq, controlAfter, hcontrol]
    exact if_pos hclosed
  | «variable» word name index =>
    rw [h.outline_eq]
    rfl
  | keyword k token index => exact stepKeyword_of_compiled h
  | number literal token index =>
    obtain ⟨value, rfl⟩ := hadmits
    rw [h.outline_eq]
    rfl
  | word token index =>
    have hdropped : (s.countsAfter (.word token index)).2.1 = s.unlooped := by
      rw [countsAfter]
      split <;> rfl
    rw [h.outline_eq, hdropped]
    rfl

theorem exists_innermost?_of_replacing {y : Outline} {kinds new : List Bracket}
    (h : s.outline.replacing kinds new = some y) :
    ∃ construct, s.innermost? = some construct ∧ construct.bracket ∈ kinds := by
  obtain ⟨bracket, rest, hnest, hmem, -⟩ := Outline.exists_of_replacing h
  obtain ⟨frame, frames, hcontrol, rfl, -⟩ := List.map_eq_cons_iff.mp hnest
  exact ⟨frame.construct, by rw [innermost?, hcontrol]; rfl, hmem⟩

theorem admits_of_stepKeyword {k : Keyword} {y : Outline} (h : s.outline.stepKeyword k = some y) :
    s.AdmitsKeyword k := by
  cases k with
  | colon | «variable» => cases h
  | semicolon =>
    obtain ⟨⟨hinside, hnest⟩, -⟩ := Outline.provided_eq_some_iff.mp h
    exact ⟨hinside, List.map_eq_nil_iff.mp hnest⟩
  | «if» | «begin» | «do» => trivial
  | «else» | «then» | «until» | again | «while» | «repeat» | loop | plusLoop =>
    obtain ⟨construct, hinner, hmem⟩ := exists_innermost?_of_replacing h
    cases construct <;> simp [Construct.bracket] at hmem <;> simp [AdmitsKeyword, hinner]
  | loopIndex | outerLoopIndex | unloop =>
    obtain ⟨hloops, -⟩ := Outline.provided_eq_some_iff.mp h
    rw [loops_outline] at hloops
    exact hloops
  | exit | recurse => exact (Outline.provided_eq_some_iff.mp h).1

/-- **An item that is read compiles**, since words without a meaning are passed over. -/
theorem admits_of_stepItem {y : Outline} (hbest : s.options.bestEffort = true) (h : s.outline.stepItem item = some y) :
    s.Admits item := by
  cases item with
  | define colon name index =>
    obtain ⟨⟨hinside, hnest⟩, -⟩ := Outline.provided_eq_some_iff.mp h
    exact ⟨Option.isSome_eq_false_iff.mp hinside |> Option.isNone_iff_eq_none.mp, List.map_eq_nil_iff.mp hnest⟩
  | «variable» word name index => trivial
  | keyword k token index => exact admits_of_stepKeyword h
  | number literal token index =>
    cases literal with
    | cell value => exact ⟨value, rfl⟩
    | outOfRange => cases h
  | word token index =>
    show (s.resolve token index).isSome
    unfold resolve
    split
    · rfl
    · split
      · rfl
      · split <;> rfl

end Steps

/-! ### Runs -/

/-- A consistent state in which words without a meaning are passed over, and none is called ahead of its definition. -/
structure Lenient (s : Compiler) : Prop where
  consistent : s.Consistent
  bestEffort : s.options.bestEffort = true
  forwardRefs : s.options.forwardRefs = false
  waiting : s.forward.waiting = []

section Runs

variable {s s' t : Compiler} {item : Item} {items : List Item}

theorem resolve_ne_later (h : s.options.forwardRefs = false) (token : Token) (index : Nat) :
    s.resolve token index ≠ some .later := by
  unfold resolve
  rw [h]
  split
  · simp
  · split
    · simp
    · split <;> simp_all

theorem Lenient.step (h : s.Lenient) (hc : Compiled (s.ready item) item s') : s'.Lenient := by
  have hoptions : s'.options = s.options := by rw [hc.options, options_ready]
  refine ⟨h.consistent.step hc, by rw [hoptions, h.bestEffort], by rw [hoptions, h.forwardRefs], ?_⟩
  rw [hc.forward]
  unfold forwardAfter
  split
  · rw [ForwardCalls.resolve, forward_ready, h.waiting]
    rfl
  · rw [resolve_ready, if_neg (resolve_ne_later h.forwardRefs _ _), forward_ready, h.waiting]
  · rw [forward_ready, h.waiting]

theorem cells_le (hc : Compiled (s.ready item) item s') : s'.cells ≤ s.cells + 1 := by
  have hcells : s'.cells = ((s.ready item).countsAfter item).2.2.1 := by rw [← hc.counts]
  rw [hcells, ← cells_ready s item]
  unfold countsAfter
  split
  · simp
  · simp
  · simp
  · simp
  · simp
  · split <;> simp
  · simp

/-- **Items that compile are read**, and each of them makes at most one variable. -/
theorem Lenient.run (h : s.Lenient) (hrun : items.forM compileItem s = .ok () t) :
    items.foldlM Outline.stepItem s.outline = some t.outline ∧ t.Lenient ∧ t.cells ≤ s.cells + items.length := by
  induction items generalizing s with
  | nil =>
    cases hrun
    exact ⟨rfl, h, Nat.le_refl _⟩
  | cons item items ih =>
    obtain ⟨_, u, hitem, hrest⟩ := bind_eq_ok.mp hrun
    have hcompiled := compileItem_compiled hitem
    have hstep := hcompiled.stepItem
    rw [outline_ready] at hstep
    obtain ⟨hread, hlast, hcells⟩ := ih (h.step hcompiled) hrest
    have hfirst := cells_le hcompiled
    rw [List.foldlM_cons, hstep, List.length_cons]
    exact ⟨hread, hlast, by omega⟩

theorem Lenient.initial {options : Options} (hbest : options.bestEffort = true)
    (hforward : options.forwardRefs = false) : (initial options).Lenient :=
  ⟨consistent_initial options, hbest, hforward, rfl⟩

theorem Lenient.error (h : s.Lenient) {e : Error} (herror : items.forM compileItem s = .error e t)
    (hsize : t.offset < 2 ^ 31 - 4096) :
    ∃ (front : List Item) (item : Item) (back : List Item) (u : Compiler), items = front ++ item :: back ∧
      front.forM compileItem s = .ok () u ∧ front.foldlM Outline.stepItem s.outline = some u.outline ∧
      u.outline.stepItem item = none ∧ t = u.met item.token := by
  obtain ⟨front, item, back, u, hitems, hrun, hadmits, ht⟩ := exists_of_forM_error h.consistent herror hsize
  obtain ⟨hread, hlenient, -⟩ := h.run hrun
  refine ⟨front, item, back, u, hitems, hrun, hread, ?_, ht⟩
  exact Option.eq_none_iff_forall_ne_some.mpr fun y hy => hadmits (admits_of_stepItem hlenient.bestEffort hy)

end Runs

/-! ### Lists of tokens -/

section Tokens

variable {s t : Compiler} {options : Options} {tokens : List Token}

theorem Lenient.compileTokens_ok (h : s.Lenient) (hrun : compileTokens tokens s = .ok () t) :
    s.outline.read tokens = some t.outline ∧ t.Lenient ∧ t.cells ≤ s.cells + tokens.length := by
  rw [compileTokens_eq, heard_eq_self h.forwardRefs] at hrun
  obtain ⟨hread, hlenient, hcells⟩ := h.run hrun
  have hitems := length_itemsFrom_le 0 tokens
  unfold items at hread hcells
  rw [Outline.foldlM_itemsFrom] at hread
  exact ⟨hread, hlenient, by omega⟩

/-- Tokens that fail do so at one that the reader refuses, or at a last one that has no name behind it. -/
theorem Lenient.compileTokens_error (h : s.Lenient) {e : Error} (herror : compileTokens tokens s = .error e t)
    (hsize : t.offset < 2 ^ 31 - 4096) : ∃ cut token rest u, tokens = cut ++ token :: rest ∧
      compileTokens cut s = .ok () u ∧ t = u.met token ∧ s.outline.read cut = some u.outline ∧
      (rest = [] ∧ (token.Is .colon ∨ token.Is .«variable») ∨ u.outline.Refuses token) := by
  rw [compileTokens_eq, heard_eq_self h.forwardRefs] at herror
  obtain ⟨front, item, back, u, hitems, hrun, hread, hstep, ht⟩ := h.error herror hsize
  obtain ⟨cut, rest, rfl, rfl, hbegins⟩ := exists_tokens_eq hitems
  refine ⟨cut, item.token, rest, u, rfl, ?_, ht, ?_, Outline.refuses_of_begins hbegins hstep⟩
  · rw [compileTokens_eq, heard_eq_self h.forwardRefs]
    exact hrun
  · rwa [Outline.foldlM_itemsFrom] at hread

end Tokens

/-! ### The end -/

section End

variable {s : Compiler} {options : Options}

theorem exists_build (hlimit : s.offset ≤ s.options.codeLimit headerSize)
    (hcells : s.options.dataBase.toNat + (8 * s.cells + s.options.stackSize.toNat) ≤ Options.maxAddress) :
    ∃ program t, build s = .ok program t := by
  have hlayout : Layout.ofOptions s.options s.cells =
      .ok ⟨s.options.codeBase, s.options.dataBase, UInt64.ofNat (8 * s.cells + s.options.stackSize.toNat)⟩ :=
    if_pos hcells
  rw [build, get_bind_apply, if_neg (Nat.not_lt.mpr hlimit)]
  simp only [count_bind_apply]
  rw [hlayout]
  exact ⟨_, _, rfl⟩

/-- No code that fits is longer than the branches reach. -/
theorem codeLimit_lt (hvalid : options.fault? = none) : options.codeLimit headerSize < 2 ^ 31 - 4096 := by
  have hsound := Options.sound_of_fault? hvalid
  have htop := hsound.stackTop_lt
  have heq := hsound.stackTop_eq
  have hpos := hsound.stackSize_pos
  have haligned := hsound.dataBase_aligned
  have hpage : Options.pageSize = 4096 := rfl
  have hheader : headerSize = 176 := rfl
  unfold Options.codeLimit
  rw [hpage] at haligned
  omega

theorem Lenient.complete_iff (h : s.Lenient) :
    s.ensureComplete = .ok () ↔ s.outline.inside = false ∧ s.outline.nest = [] := by
  rw [ensureComplete_eq_ok_iff, outline]
  simp [h.waiting]

/-- A program ends with a file if nothing is open, and code and variables fit. -/
theorem exists_finish (hcomplete : s.ensureComplete = .ok ()) (hvalid : s.options.fault? = none)
    (hcells : s.cells < 2 ^ 60) (hfits : s.ended.offset ≤ s.options.codeLimit headerSize) :
    ∃ program t, finish s = .ok program t := by
  have hsound := Options.sound_of_fault? hvalid
  have htop := hsound.stackTop_lt
  have heq := hsound.stackTop_eq
  have hmax : Options.maxAddress = 2 ^ 64 - 1 := rfl
  rw [finish_eq_of_complete hcomplete]
  obtain ⟨log, hended⟩ := s.ended_eq
  have hoptions : s.ended.options = s.options := by rw [hended]
  have hsame : s.ended.cells = s.cells := by rw [hended]
  rw [← hoptions] at hfits
  refine exists_build hfits ?_
  rw [hoptions, hsame]
  omega

theorem offset_le_ended (s : Compiler) : s.offset ≤ s.ended.offset := by
  rw [Emitter.offset_of_code s.code_ended]
  exact Nat.le_add_right _ _

end End

end Compiler

open Compiler

/-- **A list of tokens is compiled to a program if and only if it is a sentence.**  A token fails only if no sentence
begins with the tokens up to it, unless it is the last one and takes a name; and what compiles can be continued to a
sentence. -/
theorem compiles_iff_sentence {options : Options} {tokens : List Token} (hvalid : options.fault? = none)
    (hbest : options.bestEffort = true) (hforward : options.forwardRefs = false) (hlength : tokens.length < 2 ^ 60)
    (hfits : ((initial options).fed tokens).ended.offset ≤ options.codeLimit headerSize) :
    ((∃ program t, compileProgram tokens (initial options) = .ok program t) ↔ Sentence tokens) ∧
      (∀ e t, compileTokens tokens (initial options) = .error e t → ∃ cut token rest u, tokens = cut ++ token :: rest ∧
        compileTokens cut (initial options) = .ok () u ∧ t = u.met token ∧
        (rest = [] ∧ (token.Is .colon ∨ token.Is .«variable») ∨ ∀ more, ¬Sentence (cut ++ token :: more))) ∧
      ∀ t, compileTokens tokens (initial options) = .ok () t → ∃ more, Sentence (tokens ++ more) := by
  have hstart := Lenient.initial hbest hforward
  have hsize : ((initial options).fed tokens).offset < 2 ^ 31 - 4096 :=
    Nat.lt_of_le_of_lt (Nat.le_trans (offset_le_ended _) hfits) (codeLimit_lt hvalid)
  refine ⟨⟨?_, ?_⟩, ?_, ?_⟩
  · rintro ⟨program, t, hprogram⟩
    obtain ⟨_, u, htokens, hfinish⟩ := bind_eq_ok.mp hprogram
    obtain ⟨hread, hlenient, -⟩ := hstart.compileTokens_ok htokens
    exact sentence_iff_read.mpr ⟨u.outline, hread, hlenient.complete_iff.mp (complete_of_finish hfinish)⟩
  · intro hsentence
    obtain ⟨y, hread, hinside, hnest⟩ := sentence_iff_read.mp hsentence
    cases htokens : compileTokens tokens (initial options) with
    | ok _ u =>
      obtain ⟨hread', hlenient, hcells⟩ := hstart.compileTokens_ok htokens
      obtain rfl := Option.some.inj (hread.symm.trans hread')
      have hoptions := (consistent_fed (consistent_initial options) hsize).2
      rw [fed, htokens] at hfits hoptions
      change u.options = options at hoptions
      change u.ended.offset ≤ _ at hfits
      rw [← hoptions] at hvalid hfits
      have hcount : u.cells < 2 ^ 60 := Nat.lt_of_le_of_lt hcells (by simpa [initial] using hlength)
      obtain ⟨program, t, hfinish⟩ := exists_finish (hlenient.complete_iff.mpr ⟨hinside, hnest⟩) hvalid hcount hfits
      exact ⟨program, t, bind_eq_ok.mpr ⟨(), u, htokens, hfinish⟩⟩
    | error e u =>
      rw [fed, htokens] at hsize
      obtain ⟨cut, token, rest, v, rfl, -, -, hcut, hrefused⟩ := hstart.compileTokens_error htokens hsize
      rcases hrefused with ⟨rfl, hlast⟩ | hrefuses
      · exact absurd hread (Outline.read_last_ne_some hcut hlast)
      · exact absurd hsentence (Outline.not_sentence_of_refuses hcut hrefuses rest)
  · intro e t herror
    rw [fed, herror] at hsize
    obtain ⟨cut, token, rest, u, rfl, hcut, ht, hread, hrefused⟩ := hstart.compileTokens_error herror hsize
    refine ⟨cut, token, rest, u, rfl, hcut, ht, ?_⟩
    rcases hrefused with hlast | hrefuses
    · exact .inl hlast
    · exact .inr (Outline.not_sentence_of_refuses hread hrefuses)
  · intro t htokens
    exact Outline.exists_sentence (hstart.compileTokens_ok htokens).1

/-- A program with an early return, a loop in a loop and a word without a meaning. -/
theorem compiles_iff_sentence_mixed : ∃ (tokens : List Token) (program : Program) (t : Compiler),
    tokens.map (·.text) = [":", "f", "2", "0", "do", "i", "if", "unloop", "exit", "then", "loop", ";", "f", "mystery"] ∧
      compileProgram tokens (initial { bestEffort := true }) = .ok program t ∧ Sentence tokens := by
  let tokens : List Token :=
    [":", "f", "2", "0", "do", "i", "if", "unloop", "exit", "then", "loop", ";", "f", "mystery"].map (⟨·, .start⟩)
  have hfits : ((initial { bestEffort := true }).fed tokens).ended.offset ≤
      Options.codeLimit { bestEffort := true } headerSize := by decide +kernel
  have hsentence : Sentence tokens := sentence_iff_read.mpr ⟨{}, by decide +kernel, rfl, rfl⟩
  obtain ⟨program, t, hprogram⟩ := (compiles_iff_sentence (by decide +kernel) rfl rfl (by decide) hfits).1.mpr hsentence
  exact ⟨tokens, program, t, rfl, hprogram, hsentence⟩

end ForthElf
