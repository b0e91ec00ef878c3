import ForthElf.Proofs.Atomicity
import Mathlib.Data.List.Forall2

/-!
# Two compilations in step

Two lists of tokens whose words agree up to the case of letters are compiled to the same code, wherever the tokens
stand.

* `Matching` — which tokens stand for each other, and how the parts of two states go together that do not show in the
  code;
* `Matching.States s t` — all that the compiler remembers is the same in `s` and in `t`, up to tokens that stand for
  each other;
* `Matching.InStep A m n` — from matched states the actions `m` and `n` both succeed or both fail, in matched states;
* `Matching.steps_keyword`, `Matching.steps_beginDefinition`, ... — **the same handler on matched tokens stays in
  step**;
* `Matching.steps_items`, `Matching.inStep_finish` — **matched items and the end of a program stay in step**, if plain
  words do.
-/

namespace ForthElf

open Compiler Text

/-- Errors of one kind: what they tell of, and where, may differ. -/
def Error.SameKind (e f : Error) : Prop :=
  e.ctorIdx = f.ctorIdx

/-- What does not show in the code: how unresolved words are treated, the announced headers, and what is reported. -/
structure Margin where
  bestEffort : Bool
  headers : List Header
  warnings : List Warning
  tokens : Nat
  unresolved : Nat

def Margin.meet (x : Margin) : Margin :=
  { x with tokens := x.tokens + 1 }

/-- The part of a state that does not show in the code. -/
def Compiler.margin (s : Compiler) : Margin :=
  ⟨s.options.bestEffort, s.forward.headers, s.warnings.toList, s.stats.tokens, s.stats.unresolved⟩

/-- How two compilations go together. -/
structure Matching where
  /-- Tokens that stand for each other. -/
  token : Token → Token → Prop
  /-- What does not show in the code. -/
  margin : Margin → Margin → Prop
  alike : ∀ {a b : Token}, token a b → sameWord a.text b.text
  meet : ∀ {x y : Margin}, margin x y → margin x.meet y.meet

namespace Matching

variable (M : Matching)

/-! ### Matched data -/

/-- Places of tokens that stand for each other. -/
def Pos (p q : Position) : Prop :=
  ∃ a b, M.token a b ∧ p = a.pos ∧ q = b.pos

/-- Texts of tokens that stand for each other. -/
def Name (x y : String) : Prop :=
  ∃ a b, M.token a b ∧ x = a.text ∧ y = b.text

structure Frames (f g : Frame) : Prop where
  construct : f.construct = g.construct
  pos : M.Pos f.pos g.pos
  state : f.state = g.state

structure Entries (e f : Entry) : Prop where
  name : M.Name e.name f.name
  meaning : e.meaning = f.meaning
  hidden : e.hidden = f.hidden

structure Calls (c d : WaitingCall) : Prop where
  name : M.Name c.name d.name
  site : c.site = d.site
  pos : M.Pos c.pos d.pos

structure Definitions (d e : OpenDefinition) : Prop where
  number : d.number = e.number
  offset : d.offset = e.offset
  pos : M.Pos d.pos e.pos
  skipSite : d.skipSite = e.skipSite

/-- Errors of one kind, at tokens that stand for each other. -/
structure Errors (e f : Error) : Prop where
  kind : e.SameKind f
  pos : Option.Rel M.Pos e.pos? f.pos?

/-- States that are the same up to tokens that stand for each other.  The log is left out. -/
structure States (s t : Compiler) : Prop where
  emitter : s.toEmitter = t.toEmitter
  options : { s.options with bestEffort := t.options.bestEffort } = t.options
  control : List.Forall₂ M.Frames s.control t.control
  entries : List.Forall₂ M.Entries s.dictionary.entries t.dictionary.entries
  waiting : List.Forall₂ M.Calls s.forward.waiting t.forward.waiting
  printNumber : s.printNumber = t.printNumber
  entry : s.entry = t.entry
  current : Option.Rel M.Definitions s.current t.current
  returnCells : s.returnCells = t.returnCells
  unlooped : s.unlooped = t.unlooped
  cells : s.cells = t.cells
  stats : { s.stats with tokens := t.stats.tokens, unresolved := t.stats.unresolved } = t.stats
  margin : M.margin s.margin t.margin

/-- Results of actions that stay in step. -/
def Results {α β : Type} (A : α → β → Prop) : EStateM.Result Error Compiler α → EStateM.Result Error Compiler β → Prop
  | .ok a s, .ok b t => A a b ∧ M.States s t
  | .error e s, .error f t => M.Errors e f ∧ M.States s t
  | _, _ => False

/-- Actions that stay in step: from matched states both succeed with values that go together, or both fail. -/
def InStep {α β : Type} (A : α → β → Prop) (m : Compile α) (n : Compile β) : Prop :=
  ∀ s t : Compiler, M.States s t → M.Results A (m s) (n t)

/-- Actions that stay in step and give no value. -/
abbrev Steps (m n : Compile Unit) : Prop :=
  M.InStep (fun _ _ => True) m n

variable {M}

theorem Name.alike {x y : String} (h : M.Name x y) : sameWord x y := by
  obtain ⟨a, b, hab, rfl, rfl⟩ := h
  exact M.alike hab

theorem pos_of_token {a b : Token} (h : M.token a b) : M.Pos a.pos b.pos :=
  ⟨a, b, h, rfl, rfl⟩

theorem name_of_token {a b : Token} (h : M.token a b) : M.Name a.text b.text :=
  ⟨a, b, h, rfl, rfl⟩

theorem sameWord_congr {x y x' y' : String} (h : sameWord x y) (h' : sameWord x' y') :
    sameWord x x' = sameWord y y' := by
  rw [sameWord_iff] at h h'
  rw [sameWord, sameWord, h, h']

/-! ### Actions in step -/

section Rules

variable {α β γ δ : Type} {A : α → β → Prop} {B : γ → δ → Prop}

theorem inStep_pure {a : α} {b : β} (h : A a b) : M.InStep A (pure a) (pure b) :=
  fun _ _ hst => ⟨h, hst⟩

theorem inStep_throw {e f : Error} (hkind : e.SameKind f) (hpos : Option.Rel M.Pos e.pos? f.pos?) :
    M.InStep A (throw e) (throw f) :=
  fun _ _ hst => ⟨⟨hkind, hpos⟩, hst⟩

theorem inStep_throw_bind {e f : Error} {g : α → Compile γ} {g' : β → Compile δ} (hkind : e.SameKind f)
    (hpos : Option.Rel M.Pos e.pos? f.pos?) : M.InStep B (throw e >>= g) (throw f >>= g') :=
  fun _ _ hst => ⟨⟨hkind, hpos⟩, hst⟩

theorem InStep.mono {m : Compile α} {n : Compile β} {A' : α → β → Prop} (h : M.InStep A m n)
    (hA : ∀ a b, A a b → A' a b) : M.InStep A' m n := by
  intro s t hst
  have hmn := h s t hst
  cases hm : m s <;> cases hn : n t <;> rw [hm, hn] at hmn
  case ok.ok a s' b t' => exact ⟨hA a b hmn.1, hmn.2⟩
  case error.error => exact hmn
  all_goals exact hmn.elim

theorem Results.bind {m : Compile α} {n : Compile β} {f : α → Compile γ} {g : β → Compile δ} {s t : Compiler}
    (h : M.Results A (m s) (n t)) (hfg : ∀ a b, A a b → M.InStep B (f a) (g b)) :
    M.Results B ((m >>= f) s) ((n >>= g) t) := by
  show M.Results B (EStateM.bind m f s) (EStateM.bind n g t)
  unfold EStateM.bind
  cases hm : m s <;> cases hn : n t <;> rw [hm, hn] at h
  case ok.ok a s' b t' => exact hfg a b h.1 s' t' h.2
  case error.error => exact h
  all_goals exact h.elim

theorem InStep.bind {m : Compile α} {n : Compile β} {f : α → Compile γ} {g : β → Compile δ} (h : M.InStep A m n)
    (hfg : ∀ a b, A a b → M.InStep B (f a) (g b)) : M.InStep B (m >>= f) (n >>= g) :=
  fun s t hst => (h s t hst).bind hfg

theorem InStep.seq {m n : Compile Unit} {f g : Unit → Compile γ} {C : γ → γ → Prop} (h : M.Steps m n)
    (hfg : M.InStep C (f ()) (g ())) : M.InStep C (m >>= f) (n >>= g) :=
  h.bind fun _ _ _ => hfg

theorem inStep_get {f : Compiler → Compile γ} {g : Compiler → Compile δ}
    (h : ∀ s t, M.States s t → M.InStep B (f s) (g t)) : M.InStep B (get >>= f) (get >>= g) :=
  fun s t hst => h s t hst s t hst

theorem inStep_ite {c d : Prop} [Decidable c] [Decidable d] {m m' : Compile γ} {n n' : Compile δ} (hcd : c ↔ d)
    (hm : c → M.InStep B m n) (hn : ¬c → M.InStep B m' n') :
    M.InStep B (if c then m else m') (if d then n else n') := by
  by_cases hc : c
  · rw [if_pos hc, if_pos (hcd.mp hc)]
    exact hm hc
  · rw [if_neg hc, if_neg (hcd.not.mp hc)]
    exact hn hc

theorem steps_modify {change change' : Compiler → Compiler}
    (h : ∀ s t, M.States s t → M.States (change s) (change' t)) : M.Steps (modify change) (modify change') :=
  fun s t hst => ⟨trivial, h s t hst⟩

theorem inStep_modify {change change' : Compiler → Compiler} {f : PUnit → Compile γ} {g : PUnit → Compile δ}
    (h : ∀ s t, M.States s t → M.States (change s) (change' t)) (hfg : M.InStep B (f ()) (g ())) :
    M.InStep B (modify change >>= f) (modify change' >>= g) :=
  fun s t hst => hfg _ _ (h s t hst)

theorem steps_note (event event' : Event) : M.Steps (note event) (note event') :=
  fun _ _ hst => ⟨trivial, { hst with }⟩

/-- Figures other than those of tokens met and passed over are counted alike. -/
theorem steps_count {change : Statistics → Statistics}
    (h : ∀ stats tokens unresolved,
      change { stats with tokens, unresolved } = { change stats with tokens, unresolved }) :
    M.Steps (count change) (count change) := by
  refine fun s t hst => ⟨trivial, ?_⟩
  have hs : change s.stats = { change s.stats with tokens := s.stats.tokens, unresolved := s.stats.unresolved } :=
    h s.stats s.stats.tokens s.stats.unresolved
  have ht : change t.stats = { change s.stats with tokens := t.stats.tokens, unresolved := t.stats.unresolved } := by
    rw [← h s.stats, hst.stats]
  refine { hst with stats := ?_, margin := ?_ }
  · show { change s.stats with tokens := (change t.stats).tokens, unresolved := (change t.stats).unresolved } =
        change t.stats
    rw [ht]
  · have hmargins : { s with stats := change s.stats }.margin = s.margin ∧
        { t with stats := change t.stats }.margin = t.margin := by
      constructor
      · rw [hs]
        rfl
      · rw [ht]
        rfl
    show M.margin { s with stats := change s.stats }.margin { t with stats := change t.stats }.margin
    rw [hmargins.1, hmargins.2]
    exact hst.margin

/-! ### Emitting -/

theorem steps_emitting (change : Emitter → Emitter) : M.Steps (emitting change) (emitting change) :=
  steps_modify fun _ _ hst => { hst with emitter := congrArg change hst.emitter }

/-- An action of the emitter does the same in both, and fails at a branch field only. -/
theorem inStep_emitter {action : Emit α}
    (hfails : ∀ {e e' : Emitter} {error : Error}, action e = .error error e' → ∃ site, error = .patch site) :
    M.InStep Eq (emitter action) (emitter action) := by
  intro s t hst
  unfold emitter
  rw [hst.emitter]
  cases haction : action t.toEmitter with
  | ok a e => exact ⟨rfl, { hst with emitter := rfl }⟩
  | error error e =>
    obtain ⟨site, rfl⟩ := hfails haction
    exact ⟨⟨rfl, .none⟩, { hst with emitter := rfl }⟩

theorem steps_branchTo (kind : Branch) (target : Nat) :
    M.Steps (emitter (Emitter.branchTo kind target)) (emitter (Emitter.branchTo kind target)) :=
  (inStep_emitter fun h => ⟨_, Emitter.error_of_branchTo h⟩).mono fun _ _ _ => trivial

theorem inStep_here : M.InStep Eq here here :=
  inStep_get fun _ _ hst => inStep_pure (congrArg Emitter.offset hst.emitter)

theorem inStep_placeholder (kind : Branch) : M.InStep Eq (placeholder kind) (placeholder kind) :=
  inStep_get fun _ _ hst => (steps_emitting _).seq <| inStep_pure (by rw [hst.emitter])

theorem steps_patch (site target : Nat) : M.Steps (patch site target) (patch site target) :=
  ((inStep_emitter fun h => ⟨_, Emitter.error_of_patch h⟩).mono fun _ _ _ => trivial).seq <|
    steps_count fun _ _ _ => rfl

theorem steps_patchHere (site : Nat) : M.Steps (patchHere site) (patchHere site) :=
  inStep_here.bind fun target _ htarget => htarget ▸ (steps_patch site target).seq (steps_note _ _)

theorem steps_testFlag : M.Steps testFlag testFlag :=
  steps_emitting _

/-! ### Constructs -/

theorem inStep_popFor {p q : Position} (word : String) (select : Construct → Option α) (hpos : M.Pos p q) :
    M.InStep (fun x y => x.1 = y.1 ∧ M.Frames x.2 y.2) (popFor word p select) (popFor word q select) := by
  refine inStep_get fun s t hst => ?_
  have hcontrol := hst.control
  revert hcontrol
  generalize s.control = front
  generalize t.control = front'
  intro hcontrol
  cases hcontrol with
  | nil => exact fun _ _ h => ⟨⟨rfl, .some hpos⟩, h⟩
  | @cons f g rest rest' hframe hrest =>
    simp only [ControlStack.popFor, hframe.construct]
    cases select g.construct with
    | none => exact fun _ _ h => ⟨⟨rfl, .some hpos⟩, h⟩
    | some selected => exact fun _ _ h => ⟨⟨rfl, hframe⟩, { h with control := hrest }⟩

theorem steps_pushFrame {construct construct' : Construct} {p q : Position} {state state' : CacheState}
    (hframe : M.Frames ⟨construct, p, state⟩ ⟨construct', q, state'⟩) :
    M.Steps (pushFrame construct p state) (pushFrame construct' q state') :=
  steps_modify fun _ _ hst => { hst with control := .cons hframe hst.control }

theorem steps_checkMerge {p q : Position} (expected : CacheState) (hpos : M.Pos p q) :
    M.Steps (checkMerge expected p) (checkMerge expected q) :=
  inStep_get fun _ _ hst => inStep_ite (by rw [hst.emitter])
    (fun _ => inStep_throw rfl (.some hpos)) fun _ => inStep_pure trivial

theorem inStep_popBegin {p q : Position} (word : String) (hpos : M.Pos p q) :
    M.InStep Eq (popBegin word p) (popBegin word q) :=
  (inStep_popFor word _ hpos).bind fun x y hxy => inStep_pure (by rw [hxy.1, hxy.2.state])

theorem inStep_popDo {p q : Position} (word : String) (hpos : M.Pos p q) : M.InStep Eq (popDo word p) (popDo word q) :=
  (inStep_popFor word _ hpos).bind fun x y hxy => inStep_pure (by rw [hxy.1, hxy.2.state])

section States

variable {s t : Compiler} (h : M.States s t)
include h

theorem States.stackTop : s.options.stackTop = t.options.stackTop := by
  rw [← h.options]
  rfl

theorem States.isNone_current : s.current.isNone = t.current.isNone := by
  have hcurrent := h.current
  cases hs : s.current <;> cases ht : t.current <;> rw [hs, ht] at hcurrent <;> first | rfl | cases hcurrent

theorem States.openLoops : s.control.openLoops = t.control.openLoops := by
  have hcontrol := h.control
  revert hcontrol
  generalize s.control = front
  generalize t.control = front'
  intro hcontrol
  induction hcontrol with
  | nil => rfl
  | cons hframe _ ih => rw [ControlStack.openLoops_cons, ControlStack.openLoops_cons, ih, hframe.construct]

theorem States.cellsToDrop : s.cellsToDrop = t.cellsToDrop := by
  unfold Compiler.cellsToDrop
  rw [h.openLoops, h.unlooped, h.returnCells]

end States

theorem steps_beginCode : M.Steps beginCode beginCode := by
  refine inStep_get fun s t hst => inStep_ite ?_ (fun _ => ?_) fun _ => inStep_pure trivial
  · rw [hst.isNone_current, hst.entry]
  · rw [hst.stackTop]
    refine (steps_emitting _).seq <| inStep_modify (fun _ _ h => { h with entry := ?_ }) (steps_note _ _)
    rw [hst.emitter]

end Rules

/-! ### Keywords -/

section Keywords

variable {p q : Position} {a b : Token}

theorem steps_if (hpos : M.Pos p q) : M.Steps (compileIf p) (compileIf q) :=
  steps_beginCode.seq <| steps_testFlag.seq <| (inStep_placeholder _).bind fun site _ hsite =>
    hsite ▸ inStep_get fun _ _ hst => steps_pushFrame ⟨rfl, hpos, by rw [hst.emitter]⟩

theorem steps_else (hpos : M.Pos p q) : M.Steps (compileElse p) (compileElse q) := by
  refine (inStep_popFor "else" _ hpos).bind ?_
  rintro ⟨site, f⟩ ⟨_, g⟩ ⟨rfl, hframe⟩
  refine (steps_emitting _).seq <| inStep_get fun s t hst => (inStep_placeholder _).bind ?_
  rintro skip _ rfl
  refine (steps_patchHere site).seq ?_
  rw [hframe.state]
  exact (steps_emitting _).seq <| steps_pushFrame ⟨rfl, hpos, by rw [hst.emitter]⟩

theorem steps_then (hpos : M.Pos p q) : M.Steps (compileThen p) (compileThen q) := by
  refine (inStep_popFor "then" _ hpos).bind ?_
  rintro ⟨site, f⟩ ⟨_, g⟩ ⟨rfl, hframe⟩
  refine (steps_emitting _).seq ?_
  rw [hframe.state]
  exact (steps_checkMerge g.state hpos).seq (steps_patchHere site)

theorem steps_begin (hpos : M.Pos p q) : M.Steps (compileBegin p) (compileBegin q) :=
  steps_beginCode.seq <| (steps_emitting _).seq <| inStep_here.bind fun target _ htarget =>
    htarget ▸ inStep_get fun _ _ hst => steps_pushFrame ⟨rfl, hpos, by rw [hst.emitter]⟩

theorem steps_until (hpos : M.Pos p q) : M.Steps (compileUntil p) (compileUntil q) := by
  refine (inStep_popBegin "until" hpos).bind ?_
  rintro ⟨target, state⟩ _ rfl
  exact steps_testFlag.seq <| (steps_checkMerge state hpos).seq (steps_branchTo _ target)

theorem steps_again (hpos : M.Pos p q) : M.Steps (compileAgain p) (compileAgain q) := by
  refine (inStep_popBegin "again" hpos).bind ?_
  rintro ⟨target, state⟩ _ rfl
  exact (steps_emitting _).seq <| (steps_checkMerge state hpos).seq (steps_branchTo _ target)

theorem steps_while (hpos : M.Pos p q) : M.Steps (compileWhile p) (compileWhile q) := by
  refine (inStep_popBegin "while" hpos).bind ?_
  rintro ⟨target, state⟩ _ rfl
  exact steps_testFlag.seq <| (inStep_placeholder _).bind fun site _ hsite => hsite ▸ steps_pushFrame ⟨rfl, hpos, rfl⟩

theorem steps_repeat (hpos : M.Pos p q) : M.Steps (compileRepeat p) (compileRepeat q) := by
  refine (inStep_popFor "repeat" _ hpos).bind ?_
  rintro ⟨⟨target, site⟩, f⟩ ⟨_, g⟩ ⟨rfl, hframe⟩
  refine (steps_emitting _).seq ?_
  rw [hframe.state]
  exact (steps_checkMerge g.state hpos).seq <| (steps_branchTo _ target).seq (steps_patchHere site)

theorem steps_do (hpos : M.Pos p q) : M.Steps (compileDo p) (compileDo q) :=
  steps_beginCode.seq <| (steps_emitting _).seq <| inStep_here.bind fun body _ hbody =>
    hbody ▸ inStep_get fun _ _ hst => steps_pushFrame ⟨rfl, hpos, by rw [hst.emitter]⟩

theorem steps_loop (hpos : M.Pos p q) : M.Steps (compileLoop p) (compileLoop q) := by
  refine (inStep_popDo "loop" hpos).bind ?_
  rintro ⟨body, state⟩ _ rfl
  exact (steps_emitting _).seq <| (steps_checkMerge state hpos).seq <| (steps_emitting _).seq <|
    (steps_branchTo _ body).seq (steps_emitting _)

theorem steps_plusLoop (hpos : M.Pos p q) : M.Steps (compilePlusLoop p) (compilePlusLoop q) := by
  refine (inStep_popDo "+loop" hpos).bind ?_
  rintro ⟨body, state⟩ _ rfl
  refine (steps_emitting _).seq <| (steps_checkMerge state hpos).seq <| (steps_emitting _).seq <|
    (inStep_placeholder _).bind ?_
  rintro crossed _ rfl
  exact (steps_emitting _).seq <| (steps_branchTo _ body).seq <| (steps_patchHere crossed).seq (steps_emitting _)

theorem steps_loopIndex (word : String) (depth : Nat) (hpos : M.Pos p q) :
    M.Steps (compileLoopIndex word depth p) (compileLoopIndex word depth q) :=
  inStep_get fun _ _ hst => inStep_ite (by rw [hst.openLoops])
    (fun _ => inStep_throw_bind rfl (.some hpos)) fun _ => steps_emitting _

theorem steps_unloop (hpos : M.Pos p q) : M.Steps (compileUnloop p) (compileUnloop q) :=
  inStep_get fun s t hst => inStep_ite (by rw [hst.openLoops, hst.unlooped])
    (fun _ => inStep_throw_bind rfl (.some hpos)) fun _ =>
    (steps_emitting _).seq <| steps_modify fun _ _ h => { h with unlooped := congrArg (· + 1) h.unlooped }

theorem steps_exit (hab : M.token a b) : M.Steps (compileExit a) (compileExit b) := by
  refine inStep_get fun s t hst => inStep_ite (by rw [hst.isNone_current])
    (fun _ => inStep_throw_bind rfl (.some (pos_of_token hab))) fun _ => ?_
  rw [hst.cellsToDrop]
  exact (steps_emitting _).seq <| (steps_emitting _).seq <| inStep_modify (fun _ _ h => { h with unlooped := rfl }) <|
    steps_emitting _

theorem steps_recurse (hab : M.token a b) : M.Steps (compileRecurse a) (compileRecurse b) := by
  refine inStep_get fun s t hst => ?_
  have hcurrent := hst.current
  revert hcurrent
  generalize s.current = d
  generalize t.current = d'
  rintro (hdefinition | _)
  · simp only [hdefinition.offset]
    exact (steps_emitting _).seq <| (steps_branchTo _ _).seq <| steps_count fun _ _ _ => rfl
  · exact inStep_throw rfl (.some (pos_of_token hab))

end Keywords

/-! ### Names -/

section Names

variable {s t : Compiler} {x y : String} (h : M.States s t)
include h

theorem States.size : s.dictionary.size = t.dictionary.size :=
  h.entries.length_eq

theorem States.find? (hxy : sameWord x y) : Option.Rel M.Entries (s.dictionary.find? x) (t.dictionary.find? y) := by
  have hentries := h.entries
  unfold Dictionary.find?
  revert hentries
  generalize s.dictionary.entries = l
  generalize t.dictionary.entries = l'
  intro hentries
  induction hentries with
  | nil => exact .none
  | @cons e f l l' hentry _ ih =>
    have hanswers : e.answersTo x = f.answersTo y := by
      rw [Entry.answersTo, Entry.answersTo, hentry.hidden, sameWord_congr hentry.name.alike hxy]
    rw [List.find?_cons, List.find?_cons, hanswers]
    cases f.answersTo y with
    | true => exact .some hentry
    | false => exact ih

theorem States.reveal (number : Nat) :
    List.Forall₂ M.Entries (s.dictionary.reveal number).entries (t.dictionary.reveal number).entries := by
  have hmodify : ∀ {l l' : List Entry}, List.Forall₂ M.Entries l l' → ∀ i,
      List.Forall₂ M.Entries (l.modify i fun entry => { entry with hidden := false })
        (l'.modify i fun entry => { entry with hidden := false }) := by
    intro l l' hl
    induction hl with
    | nil => exact fun i => by rw [List.modify_nil]; exact .nil
    | cons hentry hrest ih =>
      rintro (_ | i)
      · exact .cons ⟨hentry.name, hentry.meaning, rfl⟩ hrest
      · exact .cons hentry (ih i)
  unfold Dictionary.reveal
  rw [h.size]
  split
  · exact hmodify h.entries _
  · exact h.entries

theorem States.sitesOf (hxy : sameWord x y) : s.forward.sitesOf x = t.forward.sitesOf y := by
  have hwaiting := h.waiting
  unfold ForwardCalls.sitesOf
  revert hwaiting
  generalize s.forward.waiting = l
  generalize t.forward.waiting = l'
  intro hwaiting
  induction hwaiting with
  | nil => rfl
  | cons hcall _ ih =>
    simp only [List.filter_cons, sameWord_congr hcall.name.alike hxy]
    split
    · rw [List.map_cons, List.map_cons, ih, hcall.site]
    · exact ih

theorem States.resolve (hxy : sameWord x y) :
    List.Forall₂ M.Calls (s.forward.resolve x).waiting (t.forward.resolve y).waiting := by
  refine List.rel_filter (fun c d hcall => ?_) h.waiting
  dsimp only
  rw [sameWord_congr hcall.name.alike hxy]

end Names

/-! ### Definitions -/

section Definitions

variable {p q : Position} {a b : Token}

theorem steps_resolveCalls (x y : String) (target : Nat) (sites : List Nat) :
    M.Steps (resolveCalls x target sites) (resolveCalls y target sites) := by
  induction sites with
  | nil => exact inStep_pure trivial
  | cons site sites ih => exact (steps_patch site target).seq <| (steps_note _ _).seq ih

theorem inStep_skipDefinition : M.InStep Eq skipDefinition skipDefinition := by
  refine inStep_get fun s t hst => inStep_ite (by rw [hst.entry]) (fun _ => ?_) fun _ => inStep_pure rfl
  exact (steps_emitting _).seq <| (inStep_placeholder _).bind fun site _ hsite => inStep_pure (congrArg some hsite)

/-- Older meanings show in the log only. -/
theorem steps_noteOlderMeaning (a b : Token) : M.Steps (noteOlderMeaning a) (noteOlderMeaning b) := by
  intro s t hst
  obtain ⟨log, hs⟩ := exists_noteOlderMeaning a s
  obtain ⟨log', ht⟩ := exists_noteOlderMeaning b t
  rw [hs, ht]
  exact ⟨trivial, { hst with }⟩

/-- **Definitions** of matched names. -/
theorem steps_beginDefinition (hab : M.token a b) (hpos : M.Pos p q) :
    M.Steps (beginDefinition a p) (beginDefinition b q) := by
  refine inStep_get fun s t hst => inStep_ite ?_ (fun _ => inStep_throw_bind rfl (.some hpos)) fun _ => ?_
  · have hnone := hst.isNone_current
    have hlength := hst.control.length_eq
    have hnil : s.control ≠ [] ↔ t.control ≠ [] := by
      rw [← List.length_pos_iff, ← List.length_pos_iff, hlength]
    rw [hnil, ← Option.not_isNone, ← Option.not_isNone, hnone]
  · refine inStep_skipDefinition.bind ?_
    rintro skipSite _ rfl
    refine (steps_emitting _).seq <| (steps_noteOlderMeaning a b).seq <| inStep_here.bind ?_
    rintro offset _ rfl
    refine inStep_get fun u v huv => inStep_modify (fun _ _ h => ?_) <| inStep_get fun u' v' huv' => ?_
    · exact { h with entries := .cons ⟨name_of_token hab, rfl, rfl⟩ h.entries }
    · rw [huv.size, huv'.sitesOf (M.alike hab)]
      refine inStep_modify (fun _ _ h => { h with waiting := h.resolve (M.alike hab) }) <|
        (steps_resolveCalls _ _ offset _).seq <| (steps_note _ _).seq <| steps_modify fun _ _ h => ?_
      exact { h with returnCells := rfl, unlooped := rfl, current := .some ⟨rfl, rfl, hpos, rfl⟩ }

theorem inStep_ensureClosed {s t : Compiler} (hst : M.States s t) :
    M.Steps (require s.control.ensureClosed) (require t.control.ensureClosed) := by
  have hcontrol := hst.control
  revert hcontrol
  generalize s.control = l
  generalize t.control = l'
  intro hcontrol
  cases hcontrol with
  | nil => exact inStep_pure trivial
  | cons hframe _ => exact inStep_throw rfl (.some hframe.pos)

theorem steps_endDefinition (hpos : M.Pos p q) : M.Steps (endDefinition p) (endDefinition q) := by
  refine inStep_get fun s t hst => ?_
  have hcurrent := hst.current
  revert hcurrent
  generalize s.current = d
  generalize t.current = d'
  rintro (@⟨d, d', hdefinition⟩ | _)
  · refine (inStep_ensureClosed hst).seq <|
      inStep_ite (by rw [hst.returnCells]) (fun _ => (steps_note _ _).seq ?_) fun _ => ?_
    -- Noted or not, the end is the same.
    all_goals
      refine inStep_modify (fun _ _ h => { h with returnCells := rfl, unlooped := rfl }) <| (steps_emitting _).seq ?_
      have hend : M.Steps (do
          modify fun s => { s with dictionary := s.dictionary.reveal d.number, current := none }
          count (·.countWord)
          note (.definitionDone d.name ((← here) - d.offset))) (do
          modify fun s => { s with dictionary := s.dictionary.reveal d'.number, current := none }
          count (·.countWord)
          note (.definitionDone d'.name ((← here) - d'.offset))) := by
        rw [hdefinition.number]
        refine inStep_modify (fun _ _ h => { h with entries := h.reveal _, current := .none }) <|
          (steps_count fun _ _ _ => rfl).seq <| inStep_here.bind fun _ _ _ => steps_note _ _
      rw [hdefinition.skipSite]
      cases d'.skipSite with
      | none => exact hend
      | some site => exact inStep_here.bind fun target _ htarget => htarget ▸ (steps_patch site target).seq hend
  · exact inStep_throw rfl (.some hpos)

/-- **Variables** with matched names. -/
theorem steps_defineVariable (hab : M.token a b) (p q : Position) :
    M.Steps (defineVariable a p) (defineVariable b q) := by
  refine inStep_get fun s t hst => inStep_ite ?_ (fun _ => (steps_note _ _).seq ?_) fun _ => ?_
  · have hfind := hst.find? (M.alike hab)
    revert hfind
    generalize s.dictionary.find? a.text = e
    generalize t.dictionary.find? b.text = f
    rintro (_ | _) <;> rfl
  all_goals
    rw [hst.stackTop, hst.cells]
    refine inStep_modify (fun _ _ h => ?_) <| (steps_count fun _ _ _ => rfl).seq (steps_note _ _)
    exact { h with cells := congrArg (· + 1) h.cells, entries := .cons ⟨name_of_token hab, rfl, rfl⟩ h.entries }

end Definitions

end Matching

/-! ### Plain words -/

/-- What a plain word refers to, if it refers to anything. -/
def Compiler.found (s : Compiler) (token : Token) (index : Nat) : Option Reference :=
  { s with options := { s.options with bestEffort := false } }.resolve token index

/-- A word that refers to nothing is passed over, or refused. -/
theorem Compiler.resolve_eq_found (s : Compiler) (token : Token) (index : Nat) :
    s.resolve token index =
      match s.found token index with
      | some reference => some reference
      | none => if s.options.bestEffort then some .nothing else none := by
  unfold found resolve
  cases Primitive.lookup? token.text with
  | some p => rfl
  | none =>
    dsimp only
    cases s.dictionary.find? token.text with
    | some entry => rfl
    | none =>
      dsimp only
      split <;> rfl

def Margin.skip (x : Margin) (token : Token) : Margin :=
  { x with warnings := x.warnings ++ [⟨token.pos, token.text⟩], unresolved := x.unresolved + 1 }

namespace Matching

section Words

variable {M : Matching} {s t : Compiler} {a b : Token} {x y : Nat}

theorem lookup?_congr {v w : String} (h : sameWord v w) : Primitive.lookup? v = Primitive.lookup? w := by
  unfold Primitive.lookup?
  refine congrArg (List.find? · Primitive.all) (funext fun p => sameWord_congr (sameWord_refl p.name) h)

theorem States.found_eq (hst : M.States s t) (hab : M.token a b)
    (hannounced : s.options.forwardRefs → s.forward.announcedAfter a.text x = t.forward.announcedAfter b.text y) :
    s.found a x = t.found b y := by
  have hrefs : s.options.forwardRefs = t.options.forwardRefs := by
    rw [← hst.options]
  have hfind := hst.find? (M.alike hab)
  simp only [found, Compiler.resolve, lookup?_congr (M.alike hab)]
  cases Primitive.lookup? b.text with
  | some p => rfl
  | none =>
    revert hfind
    generalize s.dictionary.find? a.text = e
    generalize t.dictionary.find? b.text = f
    rintro (hentry | _)
    · simp only [hentry.meaning]
    · dsimp only
      by_cases hon : s.options.forwardRefs
      · rw [← hrefs, hannounced hon]
      · rw [← hrefs]
        simp [hon]

theorem steps_primitive (p : Primitive) : M.Steps (compilePrimitive p) (compilePrimitive p) := by
  refine steps_beginCode.seq <| inStep_get fun u v huv => ?_
  rw [huv.printNumber]
  refine ((inStep_emitter fun h => ⟨_, Emitter.error_of_primitive h⟩).mono fun _ _ _ => trivial).seq <|
    inStep_modify (fun _ _ h => ?_) <| steps_count fun _ _ _ => rfl
  exact { h with returnCells := congrArg (returnCellsAfter p) h.returnCells }

theorem steps_meaning (meaning : Meaning) : M.Steps (compileMeaning meaning) (compileMeaning meaning) := by
  cases meaning with
  | code offset =>
    exact steps_beginCode.seq <| (steps_emitting _).seq <| (steps_branchTo _ offset).seq <| steps_count fun _ _ _ => rfl
  | cell address => exact steps_beginCode.seq (steps_emitting _)

theorem steps_forwardCall (hab : M.token a b) : M.Steps (compileForwardCall a) (compileForwardCall b) := by
  refine steps_beginCode.seq <| (steps_emitting _).seq <| (inStep_placeholder _).bind ?_
  rintro site _ rfl
  refine inStep_modify (fun _ _ h => ?_) <| steps_count fun _ _ _ => rfl
  exact { h with waiting := List.rel_append h.waiting (.cons ⟨name_of_token hab, rfl, pos_of_token hab⟩ .nil) }

theorem steps_number (hab : M.token a b) (literal : Literal) :
    M.Steps (compileNumber a literal) (compileNumber b literal) := by
  cases literal with
  | cell value => exact steps_beginCode.seq <| (steps_emitting _).seq <| steps_count fun _ _ _ => rfl
  | outOfRange => exact inStep_throw rfl (.some (pos_of_token hab))

/-- **Matched words that refer to the same.** -/
theorem results_word (hst : M.States s t) (hab : M.token a b) (hsame : s.resolve a x = t.resolve b y)
    (hskip : s.resolve a x = some .nothing → M.margin (s.margin.skip a) (t.margin.skip b)) :
    M.Results (fun _ _ => True) (compileWord a x s) (compileWord b y t) := by
  rw [compileWord_eq, compileWord_eq, ← hsame]
  cases hresolve : s.resolve a x with
  | none => exact ⟨⟨rfl, .some (pos_of_token hab)⟩, hst⟩
  | some reference =>
    cases reference with
    | primitive p => exact steps_primitive p s t hst
    | defined meaning => exact steps_meaning meaning s t hst
    | later => exact steps_forwardCall hab s t hst
    | nothing =>
      refine ⟨trivial, { hst with stats := ?_, margin := ?_ }⟩
      · show { s.stats with tokens := t.stats.tokens, unresolved := t.stats.unresolved + 1 } = t.stats.countUnresolved
        rw [← hst.stats]
        rfl
      · have hmargins : ∀ (u : Compiler) (token : Token) (log : Array Event),
            { u with
              log, warnings := u.warnings.push ⟨token.pos, token.text⟩, stats := u.stats.countUnresolved }.margin =
              u.margin.skip token := by
          intro u token log
          simp [Compiler.margin, Margin.skip, Statistics.countUnresolved]
        exact (hmargins s a _).symm ▸ (hmargins t b _).symm ▸ hskip hresolve

/-- **Matched words**, if what does not show in the code is kept as it is. -/
theorem steps_word (hab : M.token a b) (hbest : ∀ u v, M.margin u v → u.bestEffort = v.bestEffort)
    (hskip : ∀ u v, M.margin u v → M.margin (u.skip a) (v.skip b))
    (hannounced : ∀ s t : Compiler, M.States s t → s.options.forwardRefs →
      s.forward.announcedAfter a.text x = t.forward.announcedAfter b.text y) :
    M.Steps (compileWord a x) (compileWord b y) := by
  intro s t hst
  refine results_word hst hab ?_ fun _ => hskip _ _ hst.margin
  have hbestEffort : s.options.bestEffort = t.options.bestEffort := hbest _ _ hst.margin
  rw [resolve_eq_found, resolve_eq_found, hst.found_eq hab (hannounced s t hst), hbestEffort]

theorem steps_keyword (hab : M.token a b) (keyword : Keyword) :
    M.Steps (compileKeyword a keyword) (compileKeyword b keyword) := by
  have hpos := pos_of_token hab
  cases keyword with
  | colon => exact inStep_throw rfl (.some hpos)
  | «variable» => exact inStep_throw rfl (.some hpos)
  | semicolon => exact steps_endDefinition hpos
  | «if» => exact steps_if hpos
  | «else» => exact steps_else hpos
  | «then» => exact steps_then hpos
  | «begin» => exact steps_begin hpos
  | «until» => exact steps_until hpos
  | «again» => exact steps_again hpos
  | «while» => exact steps_while hpos
  | «repeat» => exact steps_repeat hpos
  | «do» => exact steps_do hpos
  | loop => exact steps_loop hpos
  | plusLoop => exact steps_plusLoop hpos
  | loopIndex => exact steps_loopIndex "i" 0 hpos
  | outerLoopIndex => exact steps_loopIndex "j" 1 hpos
  | unloop => exact steps_unloop hpos
  | exit => exact steps_exit hab
  | recurse => exact steps_recurse hab

end Words

/-! ### Items -/

section Items

variable {M : Matching} {s t : Compiler}

theorem States.met (hst : M.States s t) (a b : Token) : M.States (s.met a) (t.met b) := by
  refine { hst with stats := ?_, margin := M.meet hst.margin }
  show { s.stats with tokens := t.stats.tokens + 1, unresolved := t.stats.unresolved } = t.stats.countToken
  rw [← hst.stats]
  rfl

/-- Items of one kind whose tokens stand for each other. -/
inductive Items (M : Matching) : Item → Item → Prop where
  | define {colon colon' name name' : Token} {x y : Nat} (hcolon : M.token colon colon') (hname : M.token name name') :
    Items M (.define colon name x) (.define colon' name' y)
  | «variable» {word word' name name' : Token} {x y : Nat} (hword : M.token word word') (hname : M.token name name') :
    Items M (.«variable» word name x) (.«variable» word' name' y)
  | keyword {keyword : Keyword} {a b : Token} {x y : Nat} (hab : M.token a b) :
    Items M (.keyword keyword a x) (.keyword keyword b y)
  | number {literal : Literal} {a b : Token} {x y : Nat} (hab : M.token a b) :
    Items M (.number literal a x) (.number literal b y)
  | word {a b : Token} {x y : Nat} (hab : M.token a b) : Items M (.word a x) (.word b y)

/-- **Matched items**, if plain words stay in step. -/
theorem results_item {item item' : Item} (hst : M.States s t) (hitems : M.Items item item')
    (hword : ∀ a x b y, item = .word a x → item' = .word b y →
      M.Results (fun _ _ => True) (compileWord a x (s.met a)) (compileWord b y (t.met b))) :
    M.Results (fun _ _ => True) (compileItem item s) (compileItem item' t) := by
  cases hitems with
  | define hcolon hname => exact steps_beginDefinition hname (pos_of_token hcolon) _ _ (hst.met _ _)
  | «variable» hvariable hname => exact steps_defineVariable hname _ _ _ _ (hst.met _ _)
  | keyword hab => exact steps_keyword hab _ _ _ (hst.met _ _)
  | number hab => exact steps_number hab _ _ _ (hst.met _ _)
  | word hab => exact hword _ _ _ _ rfl rfl

/-- Matched items with token indices at which plain words stay in step. -/
theorem steps_item {item item' : Item} (hitems : M.Items item item')
    (hword : ∀ a b, M.token a b → M.Steps (compileWord a item.index) (compileWord b item'.index)) :
    M.Steps (compileItem item) (compileItem item') := by
  refine fun s t hst => results_item hst hitems ?_
  rintro a x b y rfl rfl
  cases hitems with
  | word hab => exact hword a b hab _ _ (hst.met a b)

/-- **Lists of items** that stay in step. -/
theorem steps_items {list list' : List Item}
    (hlists : List.Forall₂ (fun item item' => M.Steps (compileItem item) (compileItem item')) list list') :
    M.Steps (list.forM compileItem) (list'.forM compileItem) := by
  induction hlists with
  | nil => exact inStep_pure trivial
  | cons hitem _ ih => exact hitem.seq ih

end Items

/-! ### The end of a program -/

section Programs

variable (M : Matching)

/-- Labels of one place, with names of tokens that stand for each other if they are not the same. -/
structure Labels (l m : Label) : Prop where
  offset : l.offset = m.offset
  name : l.name = m.name ∨ M.Name l.name m.name

/-- Programs that differ in names, warnings and the figures of tokens only. -/
structure Programs (p q : Program) : Prop where
  image : p.image = q.image
  code : p.code = q.code
  entryOffset : p.entryOffset = q.entryOffset
  layout : p.layout = q.layout
  labels : List.Forall₂ M.Labels p.labels q.labels
  stats : { p.stats with tokens := q.stats.tokens, unresolved := q.stats.unresolved } = q.stats
  /-- The warnings and the figures of tokens are those of two states that go together. -/
  margin : ∃ s t : Compiler, M.margin s.margin t.margin ∧
    p.warnings = s.warnings.toList ∧ p.stats.tokens = s.stats.tokens ∧ p.stats.unresolved = s.stats.unresolved ∧
    q.warnings = t.warnings.toList ∧ q.stats.tokens = t.stats.tokens ∧ q.stats.unresolved = t.stats.unresolved

variable {M} {s t : Compiler}

theorem States.labels (hst : M.States s t) : List.Forall₂ M.Labels s.dictionary.labels t.dictionary.labels := by
  refine List.rel_filterMap (R := M.Entries) (fun e f hentry => ?_) (List.forall₂_reverse_iff.mpr hst.entries)
  unfold Entry.label?
  rw [hentry.meaning]
  cases f.meaning with
  | code offset => exact .some ⟨rfl, .inr hentry.name⟩
  | cell address => exact .none

theorem Programs.labels_eq {p q : Program} (h : M.Programs p q) (htext : ∀ a b, M.token a b → a.text = b.text) :
    p.labels = q.labels := by
  rw [← List.forall₂_eq_eq_eq]
  refine h.labels.imp fun ⟨offset, name⟩ ⟨offset', name'⟩ hlabels => ?_
  have hname : name = name' := by
    rcases hlabels.name with hname | ⟨a, b, hab, rfl, rfl⟩
    · exact hname
    · exact htext a b hab
  exact congrArg₂ Label.mk hlabels.offset hname

/-- Both are complete, or what is left open stands at matched tokens. -/
theorem States.ensureComplete (hst : M.States s t) : M.Steps (require s.ensureComplete) (require t.ensureComplete) := by
  have hcurrent := hst.current
  have hwaiting := hst.waiting
  have hcontrol := hst.control
  unfold Compiler.ensureComplete ForwardCalls.first?
  revert hcurrent hwaiting hcontrol
  generalize s.current = d
  generalize t.current = d'
  generalize s.forward.waiting = l
  generalize t.forward.waiting = l'
  generalize s.control = front
  generalize t.control = front'
  rintro (hdefinition | _) hwaiting hcontrol
  · exact inStep_throw rfl (.some hdefinition.pos)
  · cases hcontrol with
    | cons hframe _ => exact inStep_throw rfl (.some hframe.pos)
    | nil =>
      cases hwaiting with
      | nil => exact inStep_pure trivial
      | cons hcall _ => exact inStep_throw rfl (.some hcall.pos)

theorem steps_endProgram : M.Steps endProgram endProgram :=
  steps_beginCode.seq (steps_emitting _)

theorem inStep_build : M.InStep M.Programs build build := by
  intro s t hst
  have hlimit : s.options.codeLimit headerSize = t.options.codeLimit headerSize := by
    rw [← hst.options]
    rfl
  have hlayout : Layout.ofOptions s.options s.cells = Layout.ofOptions t.options t.cells := by
    rw [← hst.options, hst.cells]
    rfl
  have hcount : M.Steps (count (·.close t.cache.spills t.cache.fills t.offset))
      (count (·.close t.cache.spills t.cache.fills t.offset)) := steps_count fun _ _ _ => rfl
  have hclose : M.States { s with stats := s.stats.close t.cache.spills t.cache.fills t.offset }
      { t with stats := t.stats.close t.cache.spills t.cache.fills t.offset } := (hcount s t hst).2
  simp only [build, get_bind_apply, hlimit, hlayout, hst.emitter, hst.entry]
  split
  · exact ⟨⟨rfl, .none⟩, hst⟩
  · simp only [count_bind_apply]
    cases hfits : Layout.ofOptions t.options t.cells with
    | error e =>
      simp only [Layout.ofOptions] at hfits
      split at hfits <;> cases hfits
      exact ⟨⟨rfl, .none⟩, hclose⟩
    | ok layout =>
      refine ⟨⟨rfl, rfl, rfl, rfl, ?_, hclose.stats, s, t, hst.margin, rfl, rfl, rfl, rfl, rfl, rfl⟩, { hclose with }⟩
      exact .cons ⟨hst.printNumber, .inl rfl⟩ (.cons ⟨rfl, .inl rfl⟩ hst.labels)

/-- **The end of a program.** -/
theorem inStep_finish : M.InStep M.Programs finish finish :=
  inStep_get fun _ _ hst => hst.ensureComplete.seq <| steps_endProgram.seq inStep_build

/-- Before the first token the states differ in the announced headers only. -/
theorem states_announced {options options' : Options} {tokens tokens' : List Token}
    (hoptions : { options with bestEffort := options'.bestEffort } = options')
    (hmargin : M.margin (announced options tokens).margin (announced options' tokens').margin) :
    M.States (announced options tokens) (announced options' tokens') := by
  rw [announced_eq, announced_eq] at hmargin ⊢
  exact ⟨rfl, hoptions, .nil, .nil, .nil, rfl, rfl, .none, rfl, rfl, rfl, rfl, hmargin⟩

/-- **Programs**, if their items stay in step. -/
theorem results_program {options options' : Options} {tokens tokens' : List Token}
    (h : M.Results (fun _ _ => True) ((items tokens).forM compileItem (announced options tokens))
      ((items tokens').forM compileItem (announced options' tokens'))) :
    M.Results M.Programs (compileProgram tokens (initial options)) (compileProgram tokens' (initial options')) := by
  have htokens : M.Results (fun _ _ => True) (compileTokens tokens (initial options))
      (compileTokens tokens' (initial options')) := by
    rw [compileTokens_eq, compileTokens_eq]
    exact h
  exact htokens.bind fun _ _ _ => inStep_finish

end Programs

end Matching

end ForthElf
