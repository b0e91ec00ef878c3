/-!
# Numbered names

* `NameTable.intern` — the number of a name; a name that is new gets the next one.

Names are told apart letter by letter, so two spellings of one word have two numbers.
-/

namespace ForthElf

/-- The names met so far, in order. -/
structure NameTable where
  names : List String := []
deriving DecidableEq

namespace NameTable

def number? (table : NameTable) (name : String) : Option Nat :=
  table.names.idxOf? name

/-- The number of a name, and the table that has it. -/
def intern (table : NameTable) (name : String) : Nat × NameTable :=
  match table.number? name with
  | some number => (number, table)
  | none => (table.names.length, ⟨table.names ++ [name]⟩)

end NameTable

end ForthElf
