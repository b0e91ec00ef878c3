import ForthElf.Proofs.Items
import ForthElf.Proofs.Links

/-!
# What an item adds

* `Compiler.resolve` — what a plain word refers to;
* `Compiler.block s item` — the instructions that `item` adds to the code of `s`;
* `Compiler.fixes s item` — the branch fields that `item` leads to the place behind its block;
* `Compiler.Compiled s item s'` — all that the compiler does with an item, from which the properties of whole programs
  are derived.

A branch whose target is not known yet has displacement zero in a block.
-/

namespace ForthElf

open Register

/-! ### Moving the top cell -/

namespace CacheState

/-- Code that moves the top cell to memory. -/
def spilling : CacheState → List Instruction
  | .cached => pushTop
  | .spilled => []

/-- Code that moves the top cell to `rax`. -/
def filling : CacheState → List Instruction
  | .cached => []
  | .spilled => popTop

/-- Code that moves the top cell to the given place. -/
def settling (state : CacheState) : CacheState → List Instruction
  | .cached => state.filling
  | .spilled => state.spilling

theorem straight_spilling (state : CacheState) : Straight state.spilling := by
  cases state <;> exact straight_of_all rfl

theorem straight_filling (state : CacheState) : Straight state.filling := by
  cases state <;> exact straight_of_all rfl

end CacheState

/-- A block at `offset` that ends with a branch to a known target. -/
def branching (offset : Nat) (front : List Instruction) (kind : Branch) (target : Nat) :
    List Instruction :=
  front ++ [leading (offset + codeSize front) kind target]

namespace Recipe

def code (printNumber offset : Nat) (state : CacheState) : Recipe → List Instruction
  | .block entry body _ => state.settling entry ++ body
  | .discard => if state = .cached then [] else [dropCell]
  | .print => branching offset state.spilling .call printNumber

/-- The place of the top cell behind a recipe. -/
def exitState : Recipe → CacheState
  | .block _ _ exit => exit
  | _ => .spilled

end Recipe

/-- Only `?dup` and `.` have a branch. -/
theorem straight_recipe {p : Primitive} (hdup : p ≠ .questionDup) (hdot : p ≠ .dot)
    (printNumber offset : Nat) (state : CacheState) : Straight (p.recipe.code printNumber offset state) := by
  cases p <;> first | exact absurd rfl hdup | exact absurd rfl hdot | skip
  all_goals cases state <;> exact straight_of_all rfl

theorem links_branching {offset : Nat} {front : List Instruction} {kind : Branch} {target : Nat}
    (h : Straight front) :
    links offset (branching offset front kind target) = [.to (offset + codeSize front) kind target] := by
  rw [branching, links_append, h.links_eq, links_leading]
  rfl

/-! ### Fields and targets of open constructs -/

namespace Construct

/-- The branch field that a closing word will patch. -/
def site? : Construct → Option Nat
  | .«if» site => some site
  | .«else» site => some site
  | .«while» _ site => some site
  | _ => none

/-- The place to which a closing word branches back. -/
def target? : Construct → Option Nat
  | .«begin» target => some target
  | .«while» target _ => some target
  | .«do» body => some body
  | _ => none

end Construct

/-! ### Nesting -/

/-- What an item does to the nesting of constructs and definitions. -/
inductive Role where
  | opens
  /-- Closes one arm of a construct and opens the next one. -/
  | turns
  | closes
  | plain
deriving DecidableEq

def Keyword.role : Keyword → Role
  | .«if» | .«begin» | .«do» => .opens
  | .«else» | .«while» => .turns
  | .«then» | .«until» | .again | .«repeat» | .loop | .plusLoop | .semicolon => .closes
  | _ => .plain

def Item.role : Item → Role
  | .define _ _ _ => .opens
  | .keyword k _ _ => k.role
  | _ => .plain

namespace Compiler

/-! ### Starting the main program -/

/-- Whether main code still has to set up the data stack. -/
def starting (s : Compiler) : Bool :=
  s.current.isNone && s.entry.isNone

/-- What `beginCode` adds. -/
def opening (s : Compiler) : List Instruction :=
  if s.starting then entryBlock s.options.stackTop else []

def begun (s : Compiler) : Compiler :=
  if s.starting then
    { s with
      toEmitter := (s.toEmitter.emitBlock (entryBlock s.options.stackTop)).setState .spilled
      entry := some s.offset
      log := s.log.push (.entryPlaced s.offset) }
  else s

/-! ### The meaning of a word -/

/-- What a plain word refers to. -/
inductive Reference where
  | primitive (p : Primitive)
  | defined (meaning : Meaning)
  /-- A definition that is still ahead. -/
  | later
  /-- Nothing; the word is passed over. -/
  | nothing
deriving DecidableEq

/-- What the plain word with the given token index refers to, unless it is an error. -/
def resolve (s : Compiler) (token : Token) (index : Nat) : Option Reference :=
  match Primitive.lookup? token.text with
  | some p => some (.primitive p)
  | none =>
    match s.dictionary.find? token.text with
    | some entry => some (.defined entry.meaning)
    | none =>
      if s.options.forwardRefs ∧ s.forward.announcedAfter token.text index then some .later
      else if s.options.bestEffort then some .nothing
      else none

/-- Whether an item is code that has to be inside a definition or the main program. -/
def startsCode (s : Compiler) : Item → Bool
  | .number _ _ _ => true
  | .word token index => s.resolve token index != some .nothing
  | .keyword .«if» _ _ => true
  | .keyword .«begin» _ _ => true
  | .keyword .«do» _ _ => true
  | _ => false

def met (s : Compiler) (token : Token) : Compiler :=
  { s with
    log := s.log.push (.token token.pos token.text s.cache.state)
    stats := s.stats.countToken }

/-- The state in which the instructions of an item itself are emitted. -/
def ready (s : Compiler) (item : Item) : Compiler :=
  if s.startsCode item then (s.met item.token).begun else s.met item.token

/-! ### The innermost construct -/

def innermost? (s : Compiler) : Option Construct :=
  s.control.head?.map (·.construct)

/-- The place to which the innermost construct branches back. -/
def backTarget (s : Compiler) : Nat :=
  (s.innermost?.bind Construct.target?).getD 0

/-- The place of the top cell at the branch of the innermost construct. -/
def mergeState (s : Compiler) : CacheState :=
  (s.control.head?.map (·.state)).getD .spilled

section Ready

variable (s : Compiler) (item : Item)

/-- Starting the main program changes nothing but the code, the place of the top cell and the entry. -/
theorem begun_eq : ∃ log, s.begun =
    { s with toEmitter := s.begun.toEmitter, entry := s.begun.entry, log := log } := by
  unfold begun
  split <;> exact ⟨_, rfl⟩

theorem ready_eq : ∃ log stats, s.ready item =
    { s with
      toEmitter := (s.ready item).toEmitter
      entry := (s.ready item).entry
      log := log
      stats := stats } := by
  unfold ready
  split
  · obtain ⟨log, h⟩ := (s.met item.token).begun_eq
    rw [h]
    exact ⟨_, _, rfl⟩
  · exact ⟨_, _, rfl⟩

@[simp] theorem options_ready : (s.ready item).options = s.options := by
  obtain ⟨log, stats, h⟩ := s.ready_eq item
  rw [h]

@[simp] theorem control_ready : (s.ready item).control = s.control := by
  obtain ⟨log, stats, h⟩ := s.ready_eq item
  rw [h]

@[simp] theorem dictionary_ready : (s.ready item).dictionary = s.dictionary := by
  obtain ⟨log, stats, h⟩ := s.ready_eq item
  rw [h]

@[simp] theorem forward_ready : (s.ready item).forward = s.forward := by
  obtain ⟨log, stats, h⟩ := s.ready_eq item
  rw [h]

@[simp] theorem current_ready : (s.ready item).current = s.current := by
  obtain ⟨log, stats, h⟩ := s.ready_eq item
  rw [h]

@[simp] theorem printNumber_ready : (s.ready item).printNumber = s.printNumber := by
  obtain ⟨log, stats, h⟩ := s.ready_eq item
  rw [h]

@[simp] theorem cells_ready : (s.ready item).cells = s.cells := by
  obtain ⟨log, stats, h⟩ := s.ready_eq item
  rw [h]

@[simp] theorem returnCells_ready : (s.ready item).returnCells = s.returnCells := by
  obtain ⟨log, stats, h⟩ := s.ready_eq item
  rw [h]

@[simp] theorem unlooped_ready : (s.ready item).unlooped = s.unlooped := by
  obtain ⟨log, stats, h⟩ := s.ready_eq item
  rw [h]

@[simp] theorem warnings_ready : (s.ready item).warnings = s.warnings := by
  obtain ⟨log, stats, h⟩ := s.ready_eq item
  rw [h]

@[simp] theorem innermost?_ready : (s.ready item).innermost? = s.innermost? := by
  simp [innermost?]

@[simp] theorem backTarget_ready : (s.ready item).backTarget = s.backTarget := by
  simp [backTarget]

@[simp] theorem mergeState_ready : (s.ready item).mergeState = s.mergeState := by
  simp [mergeState]

@[simp] theorem entry_ready_define (colon name : Token) (index : Nat) :
    (s.ready (.define colon name index)).entry = s.entry := rfl

@[simp] theorem resolve_ready (token : Token) (index : Nat) :
    (s.ready item).resolve token index = s.resolve token index := by
  simp [resolve]

end Ready

/-! ### The instructions of an item -/

def testing (state : CacheState) : List Instruction :=
  state.filling ++ [.test rax rax]

/-- The end of a `+loop` at `offset` that goes back to `body`. -/
def plusLoopEnd (offset body : Nat) : List Instruction :=
  let crossed := offset + codeSize stepByTop
  let back := crossed + 6 + codeSize compareLimit
  stepByTop ++ [leading crossed (.jumpIf .overflow) (back + 6)] ++ compareLimit ++
    [leading back (.jumpIf .notEqual) body, dropLoop]

/-- What comes in front of the branch back in a `+loop` at `offset`. -/
def plusLoopTest (offset : Nat) : List Instruction :=
  let crossed := offset + codeSize stepByTop
  stepByTop ++ leading crossed (.jumpIf .overflow) (crossed + 6 + codeSize compareLimit + 6) :: compareLimit

theorem codeSize_plusLoopTest (offset : Nat) :
    codeSize (plusLoopTest offset) = codeSize stepByTop + 6 + codeSize compareLimit := by
  simp only [plusLoopTest, codeSize_append, codeSize_cons, size_leading, length_opcode_jumpIf]
  omega

theorem plusLoopEnd_eq (offset body : Nat) : plusLoopEnd offset body =
    branching offset (plusLoopTest offset) (.jumpIf .notEqual) body ++ [dropLoop] := by
  rw [branching, codeSize_plusLoopTest, plusLoopEnd, plusLoopTest, ← Nat.add_assoc, ← Nat.add_assoc]
  simp

def keywordCode (s : Compiler) : Keyword → List Instruction
  | .colon => []
  | .«variable» => []
  | .semicolon => s.cache.state.spilling ++ [.ret]
  | .«if» => testing s.cache.state ++ [.branch (.jumpIf .equal) 0]
  | .«else» => s.cache.state.spilling ++ [.branch .jump 0]
  | .«then» => s.cache.state.spilling
  | .«begin» => s.cache.state.spilling
  | .«until» => branching s.offset (testing s.cache.state) (.jumpIf .equal) s.backTarget
  | .again => branching s.offset s.cache.state.spilling .jump s.backTarget
  | .«while» => testing s.cache.state ++ [.branch (.jumpIf .equal) 0]
  | .«repeat» => branching s.offset s.cache.state.spilling .jump s.backTarget
  | .«do» => s.cache.state.filling ++ enterLoop
  | .loop =>
    branching s.offset (s.cache.state.spilling ++ stepByOne) (.jumpIf .less) s.backTarget ++ [dropLoop]
  | .plusLoop =>
    s.cache.state.filling ++ plusLoopEnd (s.offset + codeSize s.cache.state.filling) s.backTarget
  | .loopIndex => s.cache.state.spilling ++ [.load rax ⟨rsp, 0⟩]
  | .outerLoopIndex => s.cache.state.spilling ++ [.load rax ⟨rsp, 16⟩]
  | .unloop => [dropLoop]
  | .exit => s.cache.state.spilling ++ dropReturnCells s.cellsToDrop ++ [.ret]
  | .recurse =>
    branching s.offset s.cache.state.spilling .call ((s.current.map (·.offset)).getD 0)

def referenceCode (s : Compiler) : Reference → List Instruction
  | .primitive p => p.recipe.code s.printNumber s.offset s.cache.state
  | .defined (.code offset) => branching s.offset s.cache.state.spilling .call offset
  | .defined (.cell address) => s.cache.state.spilling ++ [.movRegImm rax address.toBitVec]
  | .later => s.cache.state.spilling ++ [.branch .call 0]
  | .nothing => []

def itemCode (s : Compiler) : Item → List Instruction
  | .define _ _ _ => if s.entry.isSome then s.cache.state.spilling ++ [.branch .jump 0] else []
  | .«variable» _ _ _ => []
  | .keyword k _ _ => s.keywordCode k
  | .number (.cell value) _ _ => s.cache.state.spilling ++ [.movRegImm rax value]
  | .number .outOfRange _ _ => []
  | .word token index => ((s.resolve token index).map s.referenceCode).getD []

/-- The start of the main program, if an item comes first in it. -/
def lead (s : Compiler) (item : Item) : List Instruction :=
  if s.startsCode item then s.opening else []

theorem straight_lead (s : Compiler) (item : Item) : Straight (s.lead item) := by
  unfold lead opening
  cases s.startsCode item <;> cases s.starting <;> exact straight_of_all rfl

theorem straight_testing (state : CacheState) : Straight (testing state) := by
  cases state <;> exact straight_of_all rfl

/-- The instructions that an item adds. -/
def block (s : Compiler) (item : Item) : List Instruction :=
  s.lead item ++ (s.ready item).itemCode item

/-- The place behind the instructions of an item itself. -/
def behind (s : Compiler) (item : Item) : Nat :=
  s.offset + codeSize (s.itemCode item)

/-- The branch fields that an item leads to the place behind its block. -/
def fixes (s : Compiler) : Item → List Nat
  | .define _ name _ => s.forward.sitesOf name.text
  | .keyword .«else» _ _ | .keyword .«then» _ _ | .keyword .«repeat» _ _ =>
    (s.innermost?.bind Construct.site?).toList
  | .keyword .semicolon _ _ => (s.current.bind (·.skipSite)).toList
  | _ => []

@[simp] theorem fixes_ready (s : Compiler) (item item' : Item) :
    (s.ready item).fixes item' = s.fixes item' := by
  unfold fixes
  split <;> simp

/-! ### The bookkeeping of an item -/

/-- What has to be open for a keyword. -/
def AdmitsKeyword (s : Compiler) : Keyword → Prop
  | .colon | .«variable» => False
  | .semicolon => s.current.isSome ∧ s.control = []
  | .«if» | .«begin» | .«do» => True
  | .«else» => ∃ site, s.innermost? = some (.«if» site)
  | .«then» => ∃ site, s.innermost? = some (.«if» site) ∨ s.innermost? = some (.«else» site)
  | .«until» | .again | .«while» => ∃ target, s.innermost? = some (.«begin» target)
  | .«repeat» => ∃ target site, s.innermost? = some (.«while» target site)
  | .loop | .plusLoop => ∃ body, s.innermost? = some (.«do» body)
  | .loopIndex => 0 < s.control.openLoops
  | .outerLoopIndex => 1 < s.control.openLoops
  | .unloop => s.unlooped < s.control.openLoops
  | .exit | .recurse => s.current.isSome

/-- What has to hold for an item to be compiled. -/
def Admits (s : Compiler) : Item → Prop
  | .define _ _ _ => s.current = none ∧ s.control = []
  | .«variable» _ _ _ => True
  | .keyword k _ _ => s.AdmitsKeyword k
  | .number literal _ _ => ∃ value, literal = .cell value
  | .word token index => (s.resolve token index).isSome

def stateAfter (s : Compiler) : Item → CacheState
  | .define _ _ _ => .spilled
  | .«variable» _ _ _ => s.cache.state
  | .keyword .loopIndex _ _ | .keyword .outerLoopIndex _ _ => .cached
  | .keyword .unloop _ _ => s.cache.state
  | .keyword .«else» _ _ => s.mergeState
  | .keyword _ _ _ => .spilled
  | .number _ _ _ => .cached
  | .word token index =>
    match s.resolve token index with
    | some (.primitive p) => p.recipe.exitState
    | some (.defined (.cell _)) => .cached
    | some (.defined (.code _)) | some .later => .spilled
    | _ => s.cache.state

/-- The construct that an item leaves open. -/
def opened (s : Compiler) (item : Item) : Option Frame :=
  let here := s.behind item
  match item with
  | .keyword .«if» token _ => some ⟨.«if» (here - 4), token.pos, .spilled⟩
  | .keyword .«else» token _ => some ⟨.«else» (here - 4), token.pos, .spilled⟩
  | .keyword .«begin» token _ => some ⟨.«begin» here, token.pos, .spilled⟩
  | .keyword .«while» token _ => some ⟨.«while» s.backTarget (here - 4), token.pos, s.mergeState⟩
  | .keyword .«do» token _ => some ⟨.«do» here, token.pos, .spilled⟩
  | _ => none

def controlAfter (s : Compiler) (item : Item) : ControlStack :=
  (s.opened item).toList ++
    match item.role with
    | .opens | .plain => s.control
    | .turns | .closes => s.control.tail

def currentAfter (s : Compiler) (item : Item) : Option OpenDefinition :=
  match item with
  | .define colon name _ =>
    some ⟨name.text, s.dictionary.size, s.behind item, colon.pos,
      if s.entry.isSome then some (s.behind item - 4) else none⟩
  | .keyword .semicolon _ _ => none
  | _ => s.current

def dictionaryAfter (s : Compiler) (item : Item) : Dictionary :=
  match item with
  | .define _ name _ => s.dictionary.define ⟨name.text, .code (s.behind item), name.pos, true⟩
  | .«variable» word name _ =>
    s.dictionary.define
      ⟨name.text, .cell (s.options.stackTop + 8 * UInt64.ofNat s.cells), word.pos, false⟩
  | .keyword .semicolon _ _ => ((s.current.map (·.number)).map s.dictionary.reveal).getD s.dictionary
  | _ => s.dictionary

def forwardAfter (s : Compiler) (item : Item) : ForwardCalls :=
  match item with
  | .define _ name _ => s.forward.resolve name.text
  | .word token index =>
    if s.resolve token index = some .later then
      s.forward.await ⟨token.text, s.behind item - 4, token.pos⟩
    else s.forward
  | _ => s.forward

/-- The counts of cells and dropped loops behind an item, and its warnings. -/
def countsAfter (s : Compiler) : Item → Nat × Nat × Nat × Array Warning
  | .define _ _ _ | .keyword .semicolon _ _ => (0, 0, s.cells, s.warnings)
  | .«variable» _ _ _ => (s.returnCells, s.unlooped, s.cells + 1, s.warnings)
  | .keyword .unloop _ _ => (s.returnCells, s.unlooped + 1, s.cells, s.warnings)
  | .keyword .exit _ _ => (s.returnCells, 0, s.cells, s.warnings)
  | .word token index =>
    match s.resolve token index with
    | some (.primitive p) => (returnCellsAfter p s.returnCells, s.unlooped, s.cells, s.warnings)
    | some .nothing =>
      (s.returnCells, s.unlooped, s.cells, s.warnings.push ⟨token.pos, token.text⟩)
    | _ => (s.returnCells, s.unlooped, s.cells, s.warnings)
  | _ => (s.returnCells, s.unlooped, s.cells, s.warnings)

/-- From the state `s` in which the instructions of an item are emitted to the state behind it: all but the statistics
and the log. -/
structure Compiled (s : Compiler) (item : Item) (s' : Compiler) : Prop where
  admits : s.Admits item
  code : CodeBuffer.Aims (s.fixes item) (s.behind item)
    (s.code.append (assemble (s.itemCode item))) s'.code
  state : s'.cache.state = s.stateAfter item
  control : s'.control = s.controlAfter item
  current : s'.current = s.currentAfter item
  dictionary : s'.dictionary = s.dictionaryAfter item
  forward : s'.forward = s.forwardAfter item
  counts : (s'.returnCells, s'.unlooped, s'.cells, s'.warnings) = s.countsAfter item
  entry : s'.entry = s.entry
  options : s'.options = s.options
  printNumber : s'.printNumber = s.printNumber

end Compiler

end ForthElf
