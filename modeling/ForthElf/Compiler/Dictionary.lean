import ForthElf.Machine.Listing
import ForthElf.Source.Position
import ForthElf.Text.Case

/-!
# The dictionary

* `Entry` — a defined name: a piece of code or a variable;
* `Dictionary.define` — adds an entry, `Dictionary.reveal` makes a hidden one visible;
* `Dictionary.find?` — the newest visible entry of a name.

Entries are never removed.  An entry is hidden while its definition is being compiled.
-/

namespace ForthElf

open Text

/-- What a defined name stands for. -/
inductive Meaning where
  /-- A definition whose code starts at `offset`. -/
  | code (offset : Nat)
  /-- A cell in memory. -/
  | cell (address : UInt64)
deriving DecidableEq

structure Entry where
  name : String
  meaning : Meaning
  definedAt : Position
  hidden : Bool
deriving DecidableEq

/-- The label of an entry that is code. -/
def Entry.label? (entry : Entry) : Option Label :=
  match entry.meaning with
  | .code offset => some ⟨offset, entry.name⟩
  | .cell _ => none

def Entry.answersTo (name : String) (entry : Entry) : Bool :=
  !entry.hidden && sameWord entry.name name

/-- The defined names, newest first. -/
structure Dictionary where
  entries : List Entry := []
deriving DecidableEq

namespace Dictionary

/-- The number of entries, which is also the number of the next one. -/
def size (d : Dictionary) : Nat :=
  d.entries.length

/-- Adds an entry; its number is the former size. -/
def define (d : Dictionary) (entry : Entry) : Dictionary :=
  ⟨entry :: d.entries⟩

/-- Makes the entry with the given number visible. -/
def reveal (d : Dictionary) (number : Nat) : Dictionary :=
  if number < d.size then
    ⟨d.entries.modify (d.size - 1 - number) fun entry => { entry with hidden := false }⟩
  else d

/-- The newest visible entry of a name. -/
def find? (d : Dictionary) (name : String) : Option Entry :=
  d.entries.find? (·.answersTo name)

/-- The labels of all entries that are code, oldest first. -/
def labels (d : Dictionary) : List Label :=
  d.entries.reverse.filterMap Entry.label?

@[simp] theorem size_define (d : Dictionary) (entry : Entry) :
    (d.define entry).size = d.size + 1 := rfl

@[simp] theorem size_reveal (d : Dictionary) (number : Nat) : (d.reveal number).size = d.size := by
  unfold reveal
  split <;> simp [size]

end Dictionary

end ForthElf
