import ForthElf.Word.Primitive

/-!
# Statistics

* `Statistics` — what a compilation has met and made;
* `Statistics.report` — the figures as a text, with the ten most used built-in words.
-/

namespace ForthElf

/-- How often each built-in word was compiled, in the order of first use. -/
abbrev PrimitiveCounts := List (Primitive × Nat)

namespace PrimitiveCounts

def bump (p : Primitive) : PrimitiveCounts → PrimitiveCounts
  | [] => [(p, 1)]
  | (q, n) :: rest => if q = p then (q, n + 1) :: rest else (q, n) :: bump p rest

def total : PrimitiveCounts → Nat
  | [] => 0
  | (_, n) :: rest => n + total rest

@[simp] theorem total_bump (p : Primitive) (counts : PrimitiveCounts) :
    (counts.bump p).total = counts.total + 1 := by
  induction counts with
  | nil => rfl
  | cons head rest ih =>
    obtain ⟨q, n⟩ := head
    simp only [bump]
    split <;> simp_all [total] <;> omega

/-- Whether the first word comes before the second in a report: used more often, or as often and
first by name. -/
def ranksBefore (a b : Primitive × Nat) : Bool :=
  b.2 < a.2 || (a.2 == b.2 && a.1.name ≤ b.1.name)

def ranked (counts : PrimitiveCounts) : PrimitiveCounts :=
  counts.mergeSort ranksBefore

end PrimitiveCounts

/-- The figures of a compilation. -/
structure Statistics where
  tokens : Nat := 0
  literals : Nat := 0
  primitives : Nat := 0
  primitiveCounts : PrimitiveCounts := []
  calls : Nat := 0
  spills : Nat := 0
  fills : Nat := 0
  fixups : Nat := 0
  words : Nat := 0
  variableCells : Nat := 0
  unresolved : Nat := 0
  codeSize : Nat := 0
deriving DecidableEq

namespace Statistics

def countToken (s : Statistics) : Statistics := { s with tokens := s.tokens + 1 }

def countLiteral (s : Statistics) : Statistics := { s with literals := s.literals + 1 }

def countPrimitive (p : Primitive) (s : Statistics) : Statistics :=
  { s with primitives := s.primitives + 1, primitiveCounts := s.primitiveCounts.bump p }

def countCall (s : Statistics) : Statistics := { s with calls := s.calls + 1 }

def countFixup (s : Statistics) : Statistics := { s with fixups := s.fixups + 1 }

def countWord (s : Statistics) : Statistics := { s with words := s.words + 1 }

def countVariable (s : Statistics) : Statistics := { s with variableCells := s.variableCells + 1 }

def countUnresolved (s : Statistics) : Statistics := { s with unresolved := s.unresolved + 1 }

/-- Enters the figures that are known at the end. -/
def close (spills fills codeSize : Nat) (s : Statistics) : Statistics :=
  { s with spills, fills, codeSize }

def row (label : String) (value : Nat) : String :=
  s!"  {label}: {value}\n"

/-- The line for words that were passed over, if there are any. -/
def unresolvedRow (s : Statistics) : String :=
  if 0 < s.unresolved then row "Unresolved tokens skipped" s.unresolved else ""

/-- The lines for the ten most used built-in words, if there are any. -/
def breakdown (s : Statistics) : String :=
  if s.primitiveCounts.isEmpty then ""
  else
    "  Primitive breakdown:\n" ++
      String.join ((s.primitiveCounts.ranked.take 10).map fun entry =>
        "  " ++ row entry.1.name entry.2)

def report (s : Statistics) : String :=
  "Compilation Session Statistics:\n" ++
    row "Tokens compiled" s.tokens ++
    row "Literals" s.literals ++
    row "Primitives" s.primitives ++
    row "Calls" s.calls ++
    row "Words defined" s.words ++
    row "Variables defined" s.variableCells ++
    row "Fixups patched" s.fixups ++
    row "Spills" s.spills ++
    row "Fills" s.fills ++
    s.unresolvedRow ++
    s!"  Total code size: {s.codeSize} bytes\n" ++
    s.breakdown

end Statistics

end ForthElf
