import ForthElf.Text.Digits

/-!
# Number literals

A literal is an optional minus sign and then decimal digits, or `0x` and hexadecimal digits.

* `Literal.readInteger?` — the integer that a text denotes, of any size;
* `Literal.parse?` — the literal of a text: a cell value, or `outOfRange` if it does not fit one.
-/

namespace ForthElf

open Text

/-- A number in the source: a 64-bit cell, or a number too large for one. -/
inductive Literal where
  | cell (value : BitVec 64)
  | outOfRange
deriving DecidableEq

namespace Literal

/-- An unsigned number: hexadecimal digits behind `0x` or `0X`, else decimal digits. -/
def readMagnitude? : List Char → Option Nat
  | '0' :: 'x' :: digits => readDigits? 16 digits
  | '0' :: 'X' :: digits => readDigits? 16 digits
  | digits => readDigits? 10 digits

/-- A magnitude behind an optional minus sign. -/
def readInteger? : List Char → Option Int
  | '-' :: cs => (readMagnitude? cs).map fun magnitude => -(magnitude : Int)
  | cs => (readMagnitude? cs).map fun magnitude => (magnitude : Int)

def ofInt (value : Int) : Literal :=
  if -0x8000000000000000 ≤ value ∧ value < 0x8000000000000000 then .cell (BitVec.ofInt 64 value) else .outOfRange

/-- The literal that a word spells, if it is shaped like a number at all. -/
def parse? (word : String) : Option Literal :=
  (readInteger? word.toList).map ofInt

end Literal

end ForthElf
