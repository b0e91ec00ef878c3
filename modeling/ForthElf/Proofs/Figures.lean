import ForthElf.Proofs.Executable
import ForthElf.Proofs.Labels

/-!
# The figures of a compilation

What the compiler counts while it goes is compared with what was read and made.

* `Compiler.Tallies m change` — the action `m` changes the figures as `change` does;
* `Compiler.counted item` — what is counted for an item, and `Compiler.tally_compileItem`: **nothing else is**;
* `Compiler.Accounts` — the figures agree with the tokens, calls, labels, warnings and cells so far, and
  `Compiler.Accounts.compileItem`: every item keeps it so;
* `figures_agree` — **the figures of a program agree with its source and its code**.
-/

namespace ForthElf

open Compiler

/-! ### Counts of built-in words -/

namespace PrimitiveCounts

def count (p : Primitive) (counts : PrimitiveCounts) : Nat :=
  (counts.lookup p).getD 0

theorem count_cons (p q : Primitive) (n : Nat) (rest : PrimitiveCounts) :
    PrimitiveCounts.count p ((q, n) :: rest) = if q = p then n else rest.count p := by
  unfold count
  by_cases h : q = p
  · simp [h]
  · have hne : (p == q) = false := beq_false_of_ne (Ne.symm h)
    simp [List.lookup_cons, hne, h]

theorem count_bump (p q : Primitive) (counts : PrimitiveCounts) :
    (counts.bump q).count p = counts.count p + if q = p then 1 else 0 := by
  induction counts with
  | nil =>
    rw [bump, count_cons, count, List.lookup_nil]
    split <;> rfl
  | cons entry rest ih =>
    obtain ⟨r, n⟩ := entry
    rw [bump, count_cons]
    by_cases hr : r = q
    · rw [if_pos hr, count_cons, hr]
      split <;> rfl
    · rw [if_neg hr, count_cons, ih]
      by_cases hp : r = p
      · have hq : q ≠ p := fun hq => hr (hp.trans hq.symm)
        simp [hp, hq]
      · simp [hp]

end PrimitiveCounts

namespace Compiler

/-! ### What actions count -/

/-- The figures but for the number of patched fields. -/
def tally (s : Compiler) : Statistics :=
  { s.stats with fixups := 0 }

/-- When the action succeeds, it has changed the figures as `change` does. -/
structure Tallies {α : Type} (m : Compile α) (change : Statistics → Statistics) : Prop where
  tally_eq : ∀ {s s' : Compiler} {a : α}, m s = .ok a s' → s'.tally = change s.tally

/-- An action that counts nothing but patched fields. -/
abbrev Silent {α : Type} (m : Compile α) : Prop :=
  Tallies m id

section Actions

variable {α β : Type} {m : Compile α} {f : α → Compile β} {change : Statistics → Statistics}

theorem Silent.bind (hm : Silent m) (hf : ∀ a, Tallies (f a) change) : Tallies (m >>= f) change := by
  refine ⟨fun h => ?_⟩
  obtain ⟨a, t, hfirst, hrest⟩ := bind_eq_ok.mp h
  rw [(hf a).tally_eq hrest, hm.tally_eq hfirst, id]

theorem Tallies.bind (hm : Tallies m change) (hf : ∀ a, Silent (f a)) : Tallies (m >>= f) change := by
  refine ⟨fun h => ?_⟩
  obtain ⟨a, t, hfirst, hrest⟩ := bind_eq_ok.mp h
  rw [(hf a).tally_eq hrest, id, hm.tally_eq hfirst]

theorem Tallies.ite {c : Prop} [Decidable c] {a b : Compile α} (ha : Tallies a change) (hb : Tallies b change) :
    Tallies (if c then a else b) change := by
  split
  · exact ha
  · exact hb

theorem silent_pure (a : α) : Silent (pure a : Compile α) := by
  refine ⟨fun h => ?_⟩
  cases h
  rfl

theorem tallies_throw (e : Error) : Tallies (throw e : Compile α) change := by
  refine ⟨fun h => ?_⟩
  cases h

theorem silent_get : Silent (get : Compile Compiler) := by
  refine ⟨fun h => ?_⟩
  cases h
  rfl

theorem silent_modify {update : Compiler → Compiler} (hupdate : ∀ s, (update s).stats = s.stats) :
    Silent (modify update : Compile PUnit) := by
  refine ⟨fun h => ?_⟩
  cases h
  rw [tally, tally, hupdate, id]

theorem tallies_count
    (hchange : ∀ stats : Statistics, { change stats with fixups := 0 } = change { stats with fixups := 0 }) :
    Tallies (count change) change := by
  refine ⟨fun h => ?_⟩
  cases h
  exact hchange _

theorem silent_emitting (update : Emitter → Emitter) : Silent (emitting update) :=
  silent_modify fun _ => rfl

theorem silent_note (event : Event) : Silent (note event) :=
  silent_modify fun _ => rfl

theorem silent_emitter (action : Emit α) : Silent (emitter action) := by
  refine ⟨fun h => ?_⟩
  unfold emitter at h
  split at h <;> cases h
  rfl

theorem silent_require (result : Except Error α) : Silent (require result) := by
  cases result with
  | ok a => exact silent_pure a
  | error e => exact tallies_throw e

theorem silent_here : Silent here :=
  silent_get.bind fun _ => silent_pure _

theorem silent_placeholder (kind : Branch) : Silent (placeholder kind) :=
  silent_get.bind fun _ => (silent_emitting _).bind fun _ => silent_pure _

theorem silent_patch (site target : Nat) : Silent (patch site target) := by
  refine ⟨fun h => ?_⟩
  obtain ⟨code, -, rfl⟩ := patch_ok h
  rfl

theorem silent_patchHere (site : Nat) : Silent (patchHere site) :=
  silent_here.bind fun _ => (silent_patch site _).bind fun _ => silent_note _

/-! ### Constructs -/

theorem silent_popFor (word : String) (pos : Position) (select : Construct → Option α) :
    Silent (popFor word pos select) :=
  silent_get.bind fun _ => (silent_require _).bind fun ⟨_, _⟩ =>
    Silent.bind (silent_modify fun _ => rfl) fun _ => silent_pure _

theorem silent_popBegin (word : String) (pos : Position) : Silent (popBegin word pos) :=
  (silent_popFor ..).bind fun ⟨_, _⟩ => silent_pure _

theorem silent_popDo (word : String) (pos : Position) : Silent (popDo word pos) :=
  (silent_popFor ..).bind fun ⟨_, _⟩ => silent_pure _

theorem silent_pushFrame (construct : Construct) (pos : Position) (state : CacheState) :
    Silent (pushFrame construct pos state) :=
  silent_modify fun _ => rfl

theorem silent_checkMerge (expected : CacheState) (pos : Position) : Silent (checkMerge expected pos) :=
  silent_get.bind fun _ => .ite (tallies_throw _) (silent_pure _)

theorem silent_beginCode : Silent beginCode :=
  silent_get.bind fun _ => .ite
    ((silent_emitting _).bind fun _ => Silent.bind (silent_modify fun _ => rfl) fun _ => silent_note _) (silent_pure _)

theorem silent_compileLoopIndex (word : String) (depth : Nat) (pos : Position) :
    Silent (compileLoopIndex word depth pos) :=
  silent_get.bind fun _ => .ite (tallies_throw _) (silent_emitting _)

/-! ### Definitions -/

theorem silent_resolveCalls (name : String) (target : Nat) (sites : List Nat) :
    Silent (resolveCalls name target sites) := by
  induction sites with
  | nil => exact silent_pure _
  | cons site sites ih => exact (silent_patch ..).bind fun _ => (silent_note _).bind fun _ => ih

theorem silent_noteOlderMeaning (name : Token) : Silent (noteOlderMeaning name) := by
  refine silent_get.bind fun s => ?_
  cases s.dictionary.find? name.text with
  | some previous => exact silent_note _
  | none => exact .ite (silent_note _) (silent_pure _)

theorem silent_skipDefinition : Silent skipDefinition :=
  silent_get.bind fun _ => .ite
    ((silent_emitting _).bind fun _ => (silent_placeholder _).bind fun _ => silent_pure _) (silent_pure _)

theorem silent_beginDefinition (name : Token) (pos : Position) : Silent (beginDefinition name pos) :=
  silent_get.bind fun _ => .ite (tallies_throw _) <|
    silent_skipDefinition.bind fun _ => (silent_emitting _).bind fun _ => (silent_noteOlderMeaning name).bind fun _ =>
    silent_here.bind fun _ => silent_get.bind fun _ => Silent.bind (silent_modify fun _ => rfl) fun _ =>
    silent_get.bind fun _ => Silent.bind (silent_modify fun _ => rfl) fun _ => (silent_resolveCalls ..).bind fun _ =>
    (silent_note _).bind fun _ => silent_modify fun _ => rfl

theorem tallies_endDefinition (pos : Position) : Tallies (endDefinition pos) Statistics.countWord := by
  refine silent_get.bind fun s => ?_
  cases s.current with
  | none => exact tallies_throw _
  | some definition =>
    have hdone : Tallies (do
        modify fun s => { s with dictionary := s.dictionary.reveal definition.number, current := none }
        count (·.countWord)
        note (.definitionDone definition.name ((← here) - definition.offset)) : Compile Unit) Statistics.countWord :=
      Silent.bind (silent_modify fun _ => rfl) fun _ =>
        (tallies_count fun _ => rfl).bind fun _ => silent_here.bind fun _ => silent_note _
    refine (silent_require _).bind fun _ => .ite ((silent_note _).bind fun _ => ?_) ?_
    -- Noted or not, the end is the same.
    all_goals
      refine Silent.bind (silent_modify fun _ => rfl) fun _ => (silent_emitting _).bind fun _ => ?_
      cases definition.skipSite with
      | some site => exact silent_here.bind fun target => (silent_patch site target).bind fun _ => hdone
      | none => exact hdone

theorem tallies_defineVariable (name : Token) (pos : Position) :
    Tallies (defineVariable name pos) Statistics.countVariable := by
  have hdefine : ∀ address : UInt64, Tallies (do
      modify fun s => { s with
        cells := s.cells + 1
        dictionary := s.dictionary.define ⟨name.text, .cell address, pos, false⟩ }
      count (·.countVariable)
      note (.variablePlaced name.text address) : Compile Unit) Statistics.countVariable := fun _ =>
    Silent.bind (silent_modify fun _ => rfl) fun _ => (tallies_count fun _ => rfl).bind fun _ => silent_note _
  exact silent_get.bind fun _ => .ite ((silent_note _).bind fun _ => hdefine _) (hdefine _)

theorem tallies_compileRecurse (token : Token) : Tallies (compileRecurse token) Statistics.countCall := by
  refine silent_get.bind fun s => ?_
  cases s.current with
  | none => exact tallies_throw _
  | some definition =>
    exact (silent_emitting _).bind fun _ => (silent_emitter _).bind fun _ => tallies_count fun _ => rfl

end Actions

/-! ### What items count -/

def Reference.counted : Reference → Statistics → Statistics
  | .primitive p => Statistics.countPrimitive p
  | .defined (.code _) => Statistics.countCall
  | .defined (.cell _) => id
  | .later => Statistics.countCall
  | .nothing => Statistics.countUnresolved

def keywordCounted : Keyword → Statistics → Statistics
  | .semicolon => Statistics.countWord
  | .recurse => Statistics.countCall
  | _ => id

/-- What is counted for an item besides its first token. -/
def counted (s : Compiler) : Item → Statistics → Statistics
  | .define _ _ _ => id
  | .«variable» _ _ _ => Statistics.countVariable
  | .keyword keyword _ _ => keywordCounted keyword
  | .number _ _ _ => Statistics.countLiteral
  | .word token index => ((s.resolve token index).map Reference.counted).getD id

theorem tallies_compileKeyword (token : Token) (keyword : Keyword) :
    Tallies (compileKeyword token keyword) (keywordCounted keyword) := by
  cases keyword with
  | colon => exact tallies_throw _
  | «variable» => exact tallies_throw _
  | semicolon => exact tallies_endDefinition token.pos
  | recurse => exact tallies_compileRecurse token
  | «if» =>
    exact silent_beginCode.bind fun _ => (silent_emitting _).bind fun _ => (silent_placeholder _).bind fun _ =>
      silent_get.bind fun _ => silent_pushFrame ..
  | «else» =>
    exact (silent_popFor ..).bind fun ⟨_, _⟩ => (silent_emitting _).bind fun _ => silent_get.bind fun _ =>
      (silent_placeholder _).bind fun _ => (silent_patchHere _).bind fun _ => (silent_emitting _).bind fun _ =>
      silent_pushFrame ..
  | «then» =>
    exact (silent_popFor ..).bind fun ⟨_, _⟩ => (silent_emitting _).bind fun _ => (silent_checkMerge ..).bind fun _ =>
      silent_patchHere _
  | «begin» =>
    exact silent_beginCode.bind fun _ => (silent_emitting _).bind fun _ => silent_here.bind fun _ =>
      silent_get.bind fun _ => silent_pushFrame ..
  | «until» =>
    exact (silent_popBegin ..).bind fun ⟨_, _⟩ => (silent_emitting _).bind fun _ => (silent_checkMerge ..).bind fun _ =>
      silent_emitter _
  | again =>
    exact (silent_popBegin ..).bind fun ⟨_, _⟩ => (silent_emitting _).bind fun _ => (silent_checkMerge ..).bind fun _ =>
      silent_emitter _
  | «while» =>
    exact (silent_popBegin ..).bind fun ⟨_, _⟩ => (silent_emitting _).bind fun _ => (silent_placeholder _).bind fun _ =>
      silent_pushFrame ..
  | «repeat» =>
    exact (silent_popFor ..).bind fun ⟨⟨_, _⟩, _⟩ => (silent_emitting _).bind fun _ =>
      (silent_checkMerge ..).bind fun _ => (silent_emitter _).bind fun _ => silent_patchHere _
  | «do» =>
    exact silent_beginCode.bind fun _ => (silent_emitting _).bind fun _ => silent_here.bind fun _ =>
      silent_get.bind fun _ => silent_pushFrame ..
  | loop =>
    exact (silent_popDo ..).bind fun ⟨_, _⟩ => (silent_emitting _).bind fun _ => (silent_checkMerge ..).bind fun _ =>
      (silent_emitting _).bind fun _ => (silent_emitter _).bind fun _ => silent_emitting _
  | plusLoop =>
    exact (silent_popDo ..).bind fun ⟨_, _⟩ => (silent_emitting _).bind fun _ => (silent_checkMerge ..).bind fun _ =>
      (silent_emitting _).bind fun _ => (silent_placeholder _).bind fun _ => (silent_emitting _).bind fun _ =>
      (silent_emitter _).bind fun _ => (silent_patchHere _).bind fun _ => silent_emitting _
  | loopIndex => exact silent_compileLoopIndex ..
  | outerLoopIndex => exact silent_compileLoopIndex ..
  | unloop =>
    exact silent_get.bind fun _ => .ite (tallies_throw _) <|
      (silent_emitting _).bind fun _ => silent_modify fun _ => rfl
  | exit =>
    exact silent_get.bind fun _ => .ite (tallies_throw _) <| (silent_emitting _).bind fun _ =>
      (silent_emitting _).bind fun _ => Silent.bind (silent_modify fun _ => rfl) fun _ => silent_emitting _

theorem tallies_compileNumber (token : Token) (literal : Literal) :
    Tallies (compileNumber token literal) Statistics.countLiteral := by
  cases literal with
  | outOfRange => exact tallies_throw _
  | cell value =>
    exact silent_beginCode.bind fun _ => (silent_emitting _).bind fun _ => tallies_count fun _ => rfl

theorem tallies_compilePrimitive (p : Primitive) : Tallies (compilePrimitive p) (Statistics.countPrimitive p) :=
  silent_beginCode.bind fun _ => silent_get.bind fun _ => (silent_emitter _).bind fun _ =>
    Silent.bind (silent_modify fun _ => rfl) fun _ => tallies_count fun _ => rfl

theorem tallies_compileMeaning (meaning : Meaning) :
    Tallies (compileMeaning meaning) (Reference.defined meaning).counted := by
  cases meaning with
  | code offset =>
    exact silent_beginCode.bind fun _ => (silent_emitting _).bind fun _ => (silent_emitter _).bind fun _ =>
      tallies_count fun _ => rfl
  | cell address => exact silent_beginCode.bind fun _ => silent_emitting _

theorem tallies_compileForwardCall (token : Token) : Tallies (compileForwardCall token) Statistics.countCall :=
  silent_beginCode.bind fun _ => (silent_emitting _).bind fun _ => (silent_placeholder _).bind fun _ =>
    Silent.bind (silent_modify fun _ => rfl) fun _ => tallies_count fun _ => rfl

theorem tallies_skipWord (token : Token) : Tallies (skipWord token) Statistics.countUnresolved :=
  (silent_note _).bind fun _ => Silent.bind (silent_modify fun _ => rfl) fun _ => tallies_count fun _ => rfl

/-- **What is counted for an item.** -/
theorem tally_compileItem {s s' : Compiler} {item : Item} (h : compileItem item s = .ok () s') :
    s'.tally = s.counted item s.tally.countToken := by
  cases item with
  | define colon name index => exact (silent_beginDefinition name colon.pos).tally_eq (s := s.met colon) h
  | «variable» word name index => exact (tallies_defineVariable name word.pos).tally_eq (s := s.met word) h
  | keyword keyword token index => exact (tallies_compileKeyword token keyword).tally_eq (s := s.met token) h
  | number literal token index => exact (tallies_compileNumber token literal).tally_eq (s := s.met token) h
  | word token index =>
    change compileWord token index (s.met token) = .ok () s' at h
    rw [compileWord_eq] at h
    have hmet : s.resolve token index = (s.met token).resolve token index := rfl
    rw [counted, hmet]
    cases hr : (s.met token).resolve token index with
    | none =>
      rw [hr] at h
      cases h
    | some reference =>
      rw [hr] at h
      cases reference with
      | primitive p => exact (tallies_compilePrimitive p).tally_eq h
      | defined meaning => exact (tallies_compileMeaning meaning).tally_eq h
      | later => exact (tallies_compileForwardCall token).tally_eq h
      | nothing => exact (tallies_skipWord token).tally_eq h

end Compiler

/-! ### Calls in code -/

def Instruction.isCall : Instruction → Bool
  | .branch .call _ => true
  | _ => false

theorem isCall_branch (kind : Branch) (d d' : BitVec 32) :
    (Instruction.branch kind d).isCall = (Instruction.branch kind d').isCall := by
  cases kind <;> rfl

def callCount (block : List Instruction) : Nat :=
  block.countP Instruction.isCall

@[simp] theorem callCount_append (a b : List Instruction) : callCount (a ++ b) = callCount a + callCount b :=
  List.countP_append

theorem Straight.callCount_eq {block : List Instruction} (h : Straight block) : callCount block = 0 := by
  refine List.countP_eq_zero.mpr fun i hi hcall => ?_
  unfold Instruction.isCall at hcall
  split at hcall
  · next d => exact h .call d hi
  · cases hcall

theorem callCount_redirect (choose : Nat → Option Nat) (offset : Nat) (block : List Instruction) :
    callCount (redirect choose offset block) = callCount block := by
  induction block generalizing offset with
  | nil => rfl
  | cons i block ih =>
    have hkind : (redirectOne choose offset i).isCall = i.isCall := by
      unfold redirectOne
      split
      · split
        · exact isCall_branch ..
        · rfl
      · rfl
    rw [redirect, callCount, List.countP_cons, hkind, callCount, List.countP_cons]
    exact congrArg (· + _) (ih _)

namespace Compiler

theorem callCount_recipe (p : Primitive) (printNumber offset : Nat) (state : CacheState) :
    callCount (p.recipe.code printNumber offset state) = if p = .dot then 1 else 0 := by
  cases p <;> cases state <;> rfl

theorem callCount_keywordCode (s : Compiler) (keyword : Keyword) :
    callCount (s.keywordCode keyword) = if keyword = .recurse then 1 else 0 := by
  unfold keywordCode
  cases keyword
  case exit =>
    dsimp only
    unfold dropReturnCells
    split <;> cases s.cache.state <;> rfl
  all_goals cases s.cache.state <;> rfl

/-- **The calls that are counted for an item** are those in its code. -/
theorem calls_counted (s : Compiler) (item : Item) (stats : Statistics) :
    (s.counted item stats).calls + (s.counted item stats).primitiveCounts.count .dot =
      stats.calls + stats.primitiveCounts.count .dot + callCount (s.itemCode item) := by
  cases item with
  | define colon name index =>
    have hcode : callCount (s.itemCode (.define colon name index)) = 0 := by
      unfold itemCode
      cases s.entry.isSome <;> cases s.cache.state <;> rfl
    rw [hcode]
    rfl
  | «variable» word name index => rfl
  | keyword keyword token index =>
    rw [itemCode, callCount_keywordCode]
    cases keyword
    case recurse => exact Nat.add_right_comm _ _ _
    all_goals rfl
  | number literal token index =>
    have hcode : callCount (s.itemCode (.number literal token index)) = 0 := by
      unfold itemCode
      cases literal <;> cases s.cache.state <;> rfl
    rw [hcode]
    rfl
  | word token index =>
    rw [counted, itemCode]
    cases s.resolve token index with
    | none => rfl
    | some reference =>
      cases reference with
      | primitive p =>
        show stats.calls + (stats.primitiveCounts.bump p).count .dot = _ + callCount (p.recipe.code _ _ _)
        rw [callCount_recipe, PrimitiveCounts.count_bump, Nat.add_assoc]
      | defined meaning =>
        cases meaning with
        | code target =>
          show stats.calls + 1 + _ = _ + callCount (s.cache.state.spilling ++ [leading _ .call target])
          rw [callCount_append, s.cache.state.straight_spilling.callCount_eq]
          exact Nat.add_right_comm _ _ _
        | cell address =>
          show _ = _ + callCount (s.cache.state.spilling ++ [.movRegImm _ _])
          rw [callCount_append, s.cache.state.straight_spilling.callCount_eq]
          rfl
      | later =>
        show stats.calls + 1 + _ = _ + callCount (s.cache.state.spilling ++ [.branch .call 0])
        rw [callCount_append, s.cache.state.straight_spilling.callCount_eq]
        exact Nat.add_right_comm _ _ _
      | nothing => rfl

theorem callCount_block (s : Compiler) (item : Item) :
    callCount (s.block item) = callCount ((s.ready item).itemCode item) := by
  rw [block, callCount_append, (s.straight_lead item).callCount_eq, Nat.zero_add]

theorem counted_ready (s : Compiler) (item : Item) : (s.ready item).counted item = s.counted item := by
  cases item <;> simp [counted]

/-! ### The other figures of an item -/

theorem tokens_counted (s : Compiler) (item : Item) (stats : Statistics) :
    (s.counted item stats).tokens = stats.tokens := by
  cases item with
  | keyword keyword token index => cases keyword <;> rfl
  | word token index =>
    rw [counted]
    rcases s.resolve token index with _ | p | ⟨_ | _⟩ | _ | _ <;> rfl
  | _ => rfl

theorem primitives_counted (s : Compiler) (item : Item) (stats : Statistics) :
    (s.counted item stats).primitives + stats.primitiveCounts.total =
      stats.primitives + (s.counted item stats).primitiveCounts.total := by
  cases item with
  | keyword keyword token index => cases keyword <;> rfl
  | word token index =>
    rw [counted]
    rcases s.resolve token index with _ | p | ⟨_ | _⟩ | _ | _
    case some.primitive =>
      show stats.primitives + 1 + _ = _ + (stats.primitiveCounts.bump p).total
      rw [PrimitiveCounts.total_bump]
      omega
    all_goals rfl
  | _ => rfl

theorem unresolved_counted (s : Compiler) (item : Item) (stats : Statistics) :
    (s.counted item stats).unresolved + s.warnings.size =
      stats.unresolved + (s.countsAfter item).2.2.2.size := by
  cases item with
  | keyword keyword token index => cases keyword <;> rfl
  | word token index =>
    rw [counted, countsAfter]
    rcases s.resolve token index with _ | p | ⟨_ | _⟩ | _ | _
    case some.nothing =>
      show stats.unresolved + 1 + _ = _ + (s.warnings.push _).size
      rw [Array.size_push]
      omega
    all_goals rfl
  | _ => rfl

theorem variableCells_counted (s : Compiler) (item : Item) (stats : Statistics) :
    (s.counted item stats).variableCells + s.cells = stats.variableCells + (s.countsAfter item).2.2.1 := by
  cases item with
  | «variable» word name index => exact Nat.add_right_comm _ _ _
  | keyword keyword token index => cases keyword <;> rfl
  | word token index =>
    rw [counted, countsAfter]
    rcases s.resolve token index with _ | p | ⟨_ | _⟩ | _ | _ <;> rfl
  | _ => rfl

/-- A definition is counted at its end. -/
theorem words_counted {s : Compiler} {item : Item} (h : s.Admits item) (stats : Statistics) :
    (s.counted item stats).words + (s.currentAfter item).toList.length =
      stats.words + s.current.toList.length + item.header?.toList.length := by
  cases item with
  | define colon name index =>
    rw [show s.current = none from h.1]
    rfl
  | keyword keyword token index =>
    cases keyword
    case semicolon =>
      obtain ⟨d, hd⟩ := Option.isSome_iff_exists.mp h.1
      rw [hd]
      rfl
    all_goals rfl
  | word token index =>
    rw [counted]
    rcases s.resolve token index with _ | p | ⟨_ | _⟩ | _ | _ <;> rfl
  | _ => rfl

end Compiler

def Item.width : Item → Nat
  | .define _ _ _ => 2
  | .«variable» _ _ _ => 2
  | _ => 1

/-- Every token belongs to one item. -/
theorem sum_width_itemsFrom (index : Nat) (tokens : List Token) :
    ((itemsFrom index tokens).map Item.width).sum = tokens.length := by
  have hplain : ∀ token index, (Item.ofToken token index).width = 1 := by
    intro token index
    unfold Item.ofToken
    split <;> rfl
  fun_induction itemsFrom index tokens with
  | case1 => rfl
  | case2 index token => simp [hplain]
  | case3 index token name rest _ ih | case4 index token name rest _ _ ih =>
    rw [List.map_cons, List.sum_cons, ih]
    exact Nat.add_comm 2 _
  | case5 index token name rest _ _ ih =>
    rw [List.map_cons, List.sum_cons, ih, hplain]
    exact Nat.add_comm 1 _

namespace Compiler

/-- The second token of an item is the name of a definition or a variable. -/
theorem width_counted (s : Compiler) (item : Item) (stats : Statistics) :
    stats.variableCells + item.width = (s.counted item stats).variableCells + item.header?.toList.length + 1 := by
  cases item with
  | keyword keyword token index => cases keyword <;> rfl
  | word token index =>
    rw [counted]
    rcases s.resolve token index with _ | p | ⟨_ | _⟩ | _ | _ <;> rfl
  | _ => rfl

/-! ### From item to item -/

/-- The figures of a compiler that has read `tokens` tokens and made `calls` calls and `labels` labels.  A definition
has its label from the start and is counted at its end. -/
structure Accounts (s : Compiler) (tokens calls labels : Nat) : Prop where
  tokens : s.tally.tokens + s.tally.words + s.tally.variableCells + s.current.toList.length = tokens
  primitives : s.tally.primitives = s.tally.primitiveCounts.total
  calls : s.tally.calls + s.tally.primitiveCounts.count .dot = calls
  words : s.tally.words + s.current.toList.length = labels
  unresolved : s.tally.unresolved = s.warnings.size
  cells : s.tally.variableCells = s.cells

/-- **Every item keeps the figures right.** -/
theorem Accounts.compileItem {s s' : Compiler} {tokens calls labels : Nat} {item : Item}
    (ha : s.Accounts tokens calls labels) (h : compileItem item s = .ok () s') :
    s'.Accounts (tokens + item.width) (calls + callCount (s.block item)) (labels + item.header?.toList.length) := by
  have hstep := compileItem_compiled h
  have htally : s'.tally = (s.ready item).counted item s.tally.countToken := by
    rw [tally_compileItem h, counted_ready]
  have hcells : s'.cells = ((s.ready item).countsAfter item).2.2.1 := congrArg (·.2.2.1) hstep.counts
  have hwarnings : s'.warnings = ((s.ready item).countsAfter item).2.2.2 := congrArg (·.2.2.2) hstep.counts
  have htokens := (s.ready item).tokens_counted item s.tally.countToken
  have hprimitives := (s.ready item).primitives_counted item s.tally.countToken
  have hcalls := (s.ready item).calls_counted item s.tally.countToken
  have hunresolved := (s.ready item).unresolved_counted item s.tally.countToken
  have hvariables := (s.ready item).variableCells_counted item s.tally.countToken
  have hwords := words_counted hstep.admits s.tally.countToken
  have hwidth := (s.ready item).width_counted item s.tally.countToken
  rw [← htally] at htokens hprimitives hcalls hunresolved hvariables hwords hwidth
  rw [← hwarnings, warnings_ready] at hunresolved
  rw [← hcells, cells_ready] at hvariables
  rw [← hstep.current, current_ready] at hwords
  rw [← callCount_block] at hcalls
  simp only [Statistics.countToken] at htokens hprimitives hcalls hunresolved hvariables hwords hwidth
  obtain ⟨htokens', hprimitives', hcalls', hwords', hunresolved', hcells'⟩ := ha
  exact ⟨by omega, by omega, by omega, by omega, by omega, by omega⟩

end Compiler

namespace Compilation

variable (c : Compilation)

/-- **The figures are right behind every item.** -/
theorem accounts {k : Nat} (hk : k ≤ c.items.length) :
    (c.state k).Accounts ((c.items.take k).map Item.width).sum (callCount (c.blocks k)) (c.definitions k).length := by
  refine c.invariant (P := fun k s => s.Accounts ((c.items.take k).map Item.width).sum (callCount (c.blocks k))
    (c.definitions k).length) ?_ (fun k item h ih => ?_) hk
  · rw [state_zero, announced_eq]
    exact ⟨rfl, rfl, rfl, rfl, rfl, rfl⟩
  · have hstep := ih.compileItem (c.compileItem_state h)
    have hwidth : ((c.items.take (k + 1)).map Item.width).sum = ((c.items.take k).map Item.width).sum + item.width := by
      simp [List.take_add_one, h]
    have hlabel : (c.definitions (k + 1)).length = (c.definitions k).length + item.header?.toList.length := by
      rw [definitions_succ, List.length_append, label?, h]
      cases item <;> rfl
    rw [hwidth, hlabel, blocks, callCount_append, c.block_eq h]
    exact hstep

theorem callCount_instructions : callCount c.instructions = callCount (c.blocks c.items.length) := by
  have hending : callCount c.ending = 0 := by
    unfold ending opening
    cases c.last.starting <;> cases c.last.begun.cache.state <;> rfl
  rw [instructions, callCount_redirect, emitted, callCount_append, hending, Nat.add_zero]

/-- The figures of a program are those behind its last item, with what is known at the end. -/
theorem stats_eq : ∃ spills fills,
    c.program.stats = c.last.stats.close spills fills c.program.code.length := by
  have h := c.finish_last
  rw [finish_eq_of_complete (complete_of_finish h)] at h
  obtain ⟨hcode, -, -, -, -, -, hstats⟩ := build_ok h
  have hoffset : c.last.ended.offset = c.program.code.length := by
    rw [hcode, Array.length_toList]
    rfl
  have hsame : c.last.ended.stats = c.last.stats := by
    obtain ⟨log, hended⟩ := c.last.ended_eq
    rw [hended]
  rw [hoffset, hsame] at hstats
  exact ⟨_, _, hstats⟩

end Compilation

def Piece.isCall (piece : Piece) : Bool :=
  piece.instruction?.any Instruction.isCall

/-- **The figures agree** with the source and the code of every program that compiles. -/
theorem figures_agree {source : String} {options : Options} {program : Program}
    (h : compile source options = .ok program) :
    ∃ tokens, tokenize source = .ok tokens ∧
      tokens.length = program.stats.tokens + program.stats.words + program.stats.variableCells ∧
      program.stats.primitives = program.stats.primitiveCounts.total ∧
      (decodeAll program.code).countP Piece.isCall =
        program.stats.calls + program.stats.primitiveCounts.count .dot ∧
      program.stats.unresolved = program.warnings.length ∧
      program.stats.words + 2 = program.labels.length ∧
      program.stats.codeSize = program.code.length ∧
      program.layout.dataSize.toNat = options.stackSize.toNat + 8 * program.stats.variableCells := by
  obtain ⟨c, rfl, rfl, htokens⟩ := exists_compilation h
  obtain ⟨spills, fills, hstats⟩ := c.stats_eq
  obtain ⟨hlayout, hfits⟩ := c.layout_eq
  obtain ⟨hread, hprimitives, hcalls, hwords, hunresolved, hcells⟩ : c.last.Accounts _ _ _ := c.accounts (Nat.le_refl _)
  rw [c.last_complete.1, Option.toList_none, List.length_nil, Nat.add_zero] at hread hwords
  rw [List.take_length] at hread
  have hdecoded : (decodeAll c.program.code).countP Piece.isCall = callCount c.instructions := by
    rw [c.decodeAll_code, List.countP_map]
    rfl
  refine ⟨c.tokens, htokens, ?_, ?_, ?_, ?_, ?_, ?_, ?_⟩ <;> rw [hstats]
  · exact (sum_width_itemsFrom 0 c.tokens).symm.trans hread.symm
  · exact hprimitives
  · rw [hdecoded, c.callCount_instructions]
    exact hcalls.symm
  · rw [c.built.2.2.2.2, Array.length_toList]
    exact hunresolved
  · rw [c.labels_eq, List.length_cons, List.length_cons, ← hwords]
    rfl
  · rfl
  · have hvariables : c.last.stats.variableCells = c.last.cells := hcells
    rw [hlayout, UInt64.toNat_ofNat', Statistics.close, hvariables]
    omega

/-- A program with a definition that is called before and behind it, a variable, output and a word that is passed
over. -/
theorem figures_agree_mixed : ∃ program : Program,
    compile "variable x 3 sq . : sq dup * ; : sq recurse ; unknown x @ sq ."
      { bestEffort := true, forwardRefs := true } = .ok program ∧
    (decodeAll program.code).countP Piece.isCall = program.stats.calls + program.stats.primitiveCounts.count .dot ∧
    program.stats.words + 2 = program.labels.length := by
  obtain ⟨program, h⟩ := exists_of_isOk
    (x := compile "variable x 3 sq . : sq dup * ; : sq recurse ; unknown x @ sq ."
      { bestEffort := true, forwardRefs := true })
    (by decide +kernel)
  obtain ⟨tokens, -, -, -, hcalls, -, hlabels, -⟩ := figures_agree h
  exact ⟨program, h, hcalls, hlabels⟩

end ForthElf
