import ForthElf.Error

/-!
# The log

* `Event` — something worth noting during a compilation;
* `Event.level`, `Event.topic`, `Event.message` — how it is shown;
* `Level.shows` — whether a log of one level holds events of another.
-/

namespace ForthElf

/-- How much a log tells, from little to much. -/
inductive Level where
  | warn
  | info
  | debug
  | trace
deriving DecidableEq

namespace Level

def rank : Level → Nat
  | .warn => 0
  | .info => 1
  | .debug => 2
  | .trace => 3

/-- Whether a log of this level holds events of level `other`. -/
def shows (level other : Level) : Bool :=
  other.rank ≤ level.rank

def name : Level → String
  | .warn => "WARN"
  | .info => "INFO"
  | .debug => "DEBUG"
  | .trace => "TRACE"

end Level

inductive Event where
  /-- The number printing routine was emitted. -/
  | printNumberPlaced (offset : Nat)
  /-- A token is about to be compiled. -/
  | token (pos : Position) (text : String) (state : CacheState)
  /-- A definition takes the place of an older entry. -/
  | redefined (pos : Position) (name : String) (previous : Position)
  /-- A definition has the name of a built-in word, which keeps its meaning. -/
  | shadowed (pos : Position) (name : String)
  /-- A variable takes the place of an older entry. -/
  | variableRedefined (pos : Position) (name : String)
  /-- A waiting call got its target. -/
  | callResolved (site : Nat) (name : String) (target : Nat)
  | definitionStarted (name : String) (offset : Nat)
  /-- A definition ends with more cells moved to the return stack than back. -/
  | cellsLeft (pos : Position) (name : String) (cells : Nat)
  | definitionDone (name : String) (size : Nat)
  | variablePlaced (name : String) (address : UInt64)
  | entryPlaced (offset : Nat)
  /-- A branch got its target. -/
  | branchResolved (site target : Nat)
  /-- An unresolved word was passed over. -/
  | skipped (warning : Warning)
  | imageBuilt (size : Nat) (entry dataBase dataSize : UInt64)
  | compiling (path : String)
  | wrote (path : String) (size : Nat) (entry : UInt64)
deriving DecidableEq

namespace Event

def level : Event → Level
  | .redefined .. | .shadowed .. | .variableRedefined .. | .cellsLeft .. | .skipped _ => .warn
  | .compiling _ | .wrote .. => .info
  | .token .. => .trace
  | _ => .debug

/-- The part of the program that an event belongs to. -/
def topic : Event → String
  | .printNumberPlaced _ => "fifthc::x64::runtime"
  | .imageBuilt .. => "fifthc::image"
  | _ => "fifthc::compiler"

def message : Event → String
  | .printNumberPlaced offset => s!"runtime: print_number at {offsetText offset}"
  | .token pos text state => s!"{pos.text}: `{text}` ({state.text})"
  | .redefined pos name previous =>
    s!"{pos.text}: redefinition of `{name}` (previous definition at {previous.text})"
  | .shadowed pos name =>
    s!"{pos.text}: `{name}` is a built-in word and stays shadowed by it"
  | .variableRedefined pos name => s!"{pos.text}: redefinition of `{name}`"
  | .callResolved site name target =>
    s!"forward call at {offsetText site} -> `{name}` at {offsetText target}"
  | .definitionStarted name offset => s!"defining `{name}` at {offsetText offset}"
  | .cellsLeft pos name cells =>
    s!"{pos.text}: `{name}` ends with {cells} cell(s) left on the return stack"
  | .definitionDone name size => s!"`{name}` done: {size} bytes"
  | .variablePlaced name address => s!"variable `{name}` at {addressText address}"
  | .entryPlaced offset => s!"entry at {offsetText offset}"
  | .branchResolved site target => s!"patched {offsetText site} -> {offsetText target}"
  | .skipped warning => warning.message
  | .imageBuilt size entry dataBase dataSize =>
    s!"image: {size} bytes, entry {addressText entry}, data {addressText dataBase}+{addressText dataSize}"
  | .compiling path => s!"🔧 Compiling {path}"
  | .wrote path size entry => s!"wrote {path} ({size} bytes, entry {addressText entry})"

end Event

/-- The events of a log that a level shows. -/
def Level.select (level : Level) (events : List Event) : List Event :=
  events.filter fun event => level.shows event.level

end ForthElf
