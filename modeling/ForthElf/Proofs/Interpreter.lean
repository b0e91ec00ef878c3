import ForthElf.Proofs.Names
import ForthElf.Word.Effect

/-!
# A reference interpreter

The interpreter runs the items of a program directly, with a data stack of cells, the loops of the running definition,
and the definitions that wait for it to return.

* `Config` — what the interpreter knows between two items;
* `Config.step items config` — what the item at hand does;
* `interpret items room fuel config` — the output of a run that ends within so many items and keeps its stacks within
  `room`;
* `Item.isStructured` — the words of which the interpreter has a meaning.

Where a construct starts and ends, and to which definition a name refers, is read off the items alone.
-/

namespace ForthElf

/-! ### Matching items -/

/-- The item that closes or replaces the bracket of item `i`. -/
def closer? (items : List Item) (i : Nat) : Option Nat :=
  (List.range items.length).find? fun j => opener? items j == some i

def Item.isDefinition : Item → Bool
  | .define _ _ _ => true
  | _ => false

def opensDefinition (items : List Item) (h : Nat) : Bool :=
  (items[h]?).any Item.isDefinition

/-- The definition that is open in front of item `k`. -/
def enclosing? (items : List Item) (k : Nat) : Option Nat :=
  (brackets items k).find? (opensDefinition items)

/-! ### Words beyond the interpreter -/

namespace Primitive

/-- Whether a word looks at memory beside the stacks. -/
def usesMemory : Primitive → Bool
  | .fetch | .store | .fetchByte | .storeByte | .plusStore => true
  | _ => false

/-- Whether a word looks at the return stack. -/
def usesReturnStack : Primitive → Bool
  | .toReturn | .fromReturn | .returnFetch => true
  | _ => false

end Primitive

/-! ### Configurations -/

/-- Index and limit of a running loop. -/
structure LoopFrame where
  index : Cell
  limit : Cell
deriving DecidableEq

namespace LoopFrame

/-- `loop` goes back while the index, increased by one, is below the limit. -/
def step? (l : LoopFrame) : Option LoopFrame :=
  if (l.index + 1).slt l.limit then some { l with index := l.index + 1 } else none

/-- A step takes the index across the boundary between the limit and the cell below it. -/
def Crosses (l : LoopFrame) (step : Cell) : Prop :=
  ((l.index - l.limit).toNat : Int) + step.toInt < 0 ∨ 2 ^ 64 ≤ ((l.index - l.limit).toNat : Int) + step.toInt

instance (l : LoopFrame) (step : Cell) : Decidable (l.Crosses step) :=
  inferInstanceAs (Decidable (_ ∨ _))

/-- `+loop` goes back unless the index crosses or meets the limit. -/
def stepBy? (l : LoopFrame) (step : Cell) : Option LoopFrame :=
  if l.Crosses step ∨ l.index + step = l.limit then none else some { l with index := l.index + step }

end LoopFrame

/-- A definition that waits for another one to return: the item with which it goes on, and its loops. -/
structure Caller where
  back : Nat
  loops : List LoopFrame
deriving DecidableEq

/-- The interpreter between two items. -/
structure Config where
  /-- The next item. -/
  pos : Nat := 0
  data : List Cell := []
  /-- The loops of the running definition, innermost first. -/
  loops : List LoopFrame := []
  callers : List Caller := []
  output : List UInt8 := []
deriving DecidableEq

/-- What an item does. -/
inductive Outcome where
  | goesOn (config : Config)
  | halts (output : List UInt8)
  | undefined

namespace Outcome

def ofOption : Option Config → Outcome
  | some config => .goesOn config
  | none => .undefined

theorem ofOption_eq_goesOn_iff {config? : Option Config} {config : Config} :
    ofOption config? = .goesOn config ↔ config? = some config := by
  cases config? <;> simp [ofOption]

end Outcome

namespace Config

variable (items : List Item) (config : Config)

def behind (i : Nat) : Config :=
  { config with pos := i + 1 }

def next : Config :=
  config.behind config.pos

def push (a : Cell) : Config :=
  { config.next with data := a :: config.data }

/-- Takes a flag, and goes on behind an item if it is zero. -/
def branchIfZero (target? : Option Nat) : Option Config :=
  match config.data with
  | flag :: data =>
    if flag = 0 then target?.map { config with data }.behind else some { config with data }.next
  | [] => none

/-- Calls the definition that item `h` opens. -/
def call (h : Nat) : Config :=
  { config with pos := h + 1, loops := [], callers := ⟨config.pos + 1, config.loops⟩ :: config.callers }

/-- Returns from a definition, whatever loops are running in it. -/
def return? : Option Config :=
  match config.callers with
  | caller :: callers => some { config with pos := caller.back, loops := caller.loops, callers }
  | [] => none

/-- Goes back to the start of a loop, or on behind it. -/
def endLoop (outer : List LoopFrame) : Option LoopFrame → Option Config
  | some l => (opener? items config.pos).map { config with loops := l :: outer }.behind
  | none => some { config with loops := outer }.next

def stepKeyword : Keyword → Option Config
  | .«if» | .«while» => config.branchIfZero (closer? items config.pos)
  | .«else» => (closer? items config.pos).map config.behind
  | .«then» | .«begin» => some config.next
  | .«until» => config.branchIfZero (opener? items config.pos)
  | .again => (opener? items config.pos).map config.behind
  | .«repeat» => ((opener? items config.pos).bind (opener? items)).map config.behind
  | .«do» => match config.data with
    | index :: limit :: data => some { config.next with data, loops := ⟨index, limit⟩ :: config.loops }
    | _ => none
  | .loop => match config.loops with
    | l :: outer => config.endLoop items outer l.step?
    | [] => none
  | .plusLoop => match config.data, config.loops with
    | step :: data, l :: outer => { config with data }.endLoop items outer (l.stepBy? step)
    | _, _ => none
  | .loopIndex => match config.loops with
    | l :: _ => some (config.push l.index)
    | [] => none
  | .outerLoopIndex => match config.loops with
    | _ :: l :: _ => some (config.push l.index)
    | _ => none
  | .semicolon | .exit => config.return?
  | .recurse => (enclosing? items config.pos).map config.call
  | .colon | .«variable» | .unloop => none

def stepPrimitive (p : Primitive) : Outcome :=
  if p.usesMemory || p.usesReturnStack then .undefined
  else match p.effect { data := config.data, output := config.output } with
    | .goesOn w => .goesOn { config.next with data := w.data, output := w.output }
    | .halts => .halts config.output
    | .undefined => .undefined

/-- What any other word does: it calls the definition to which it refers. -/
def stepName (name : String) : Option Config :=
  ((referent? items config.pos name).filter (opensDefinition items)).map config.call

/-- **What the item at hand does.** -/
def step : Outcome :=
  match items[config.pos]? with
  | none => .halts config.output
  | some (.define _ _ _) => .ofOption ((closer? items config.pos).map config.behind)
  | some (.«variable» _ _ _) => .undefined
  | some (.keyword keyword _ _) => .ofOption (config.stepKeyword items keyword)
  | some (.number (.cell value) _ _) => .goesOn (config.push value)
  | some (.number .outOfRange _ _) => .undefined
  | some (.word token _) =>
    match Primitive.lookup? token.text with
    | some p => config.stepPrimitive p
    | none => .ofOption (config.stepName items token.text)

end Config

/-! ### Runs -/

/-- The cells of the return stack: two for each loop and one for each caller. -/
def Config.returnCells (config : Config) : Nat :=
  2 * config.loops.length + (config.callers.map fun caller => 1 + 2 * caller.loops.length).sum

/-- The most cells that a run may have on its stacks. -/
structure Room where
  data : Nat
  ret : Nat

def Config.Fits (config : Config) (room : Room) : Prop :=
  config.data.length ≤ room.data ∧ config.returnCells ≤ room.ret

instance (config : Config) (room : Room) : Decidable (config.Fits room) :=
  inferInstanceAs (Decidable (_ ∧ _))

/-- The output of a run that ends within `fuel` items, does nothing undefined and stays within `room`. -/
def interpret (items : List Item) (room : Room) : Nat → Config → Option (List UInt8)
  | 0, _ => none
  | fuel + 1, config =>
    if config.Fits room then
      match config.step items with
      | .goesOn config => interpret items room fuel config
      | .halts output => some output
      | .undefined => none
    else none

/-- The words of which the interpreter has a meaning. -/
def Item.isStructured : Item → Bool
  | .define _ _ _ => true
  | .«variable» _ _ _ => false
  | .keyword k _ _ => k ≠ .unloop
  | .number _ _ _ => true
  | .word token _ => match Primitive.lookup? token.text with
    | some p => !p.usesMemory && !p.usesReturnStack
    | none => true

end ForthElf
