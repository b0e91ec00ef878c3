import ForthElf.Text.Case

/-!
# Built-in words

* `Primitive` — the words that compile to machine code in place;
* `Primitive.name` — the spelling of a word, `Primitive.lookup?` the word that a text spells.
-/

namespace ForthElf

open Text

inductive Primitive where
  | dup
  | drop
  | swap
  | over
  | nip
  | rot
  | minusRot
  | tuck
  | twoDup
  | questionDup
  | add
  | sub
  | mul
  | div
  | mod
  | negate
  | onePlus
  | oneMinus
  | abs
  | max
  | min
  | and
  | or
  | xor
  | invert
  | leftShift
  | rightShift
  | equal
  | notEqual
  | less
  | greater
  | zeroEqual
  | zeroLess
  | zeroGreater
  | fetch
  | store
  | fetchByte
  | storeByte
  | plusStore
  | toReturn
  | fromReturn
  | returnFetch
  | emit
  | newline
  | dot
  | bye
deriving DecidableEq

namespace Primitive

/-- All built-in words: shuffles, arithmetic, bits, comparisons, memory, return stack, output, process. -/
def all : List Primitive :=
  [.dup, .drop, .swap, .over, .nip, .rot, .minusRot, .tuck, .twoDup, .questionDup,
   .add, .sub, .mul, .div, .mod, .negate, .onePlus, .oneMinus, .abs, .max, .min,
   .and, .or, .xor, .invert, .leftShift, .rightShift,
   .equal, .notEqual, .less, .greater, .zeroEqual, .zeroLess, .zeroGreater,
   .fetch, .store, .fetchByte, .storeByte, .plusStore,
   .toReturn, .fromReturn, .returnFetch,
   .emit, .newline, .dot,
   .bye]

def name : Primitive → String
  | .dup => "dup"
  | .drop => "drop"
  | .swap => "swap"
  | .over => "over"
  | .nip => "nip"
  | .rot => "rot"
  | .minusRot => "-rot"
  | .tuck => "tuck"
  | .twoDup => "2dup"
  | .questionDup => "?dup"
  | .add => "+"
  | .sub => "-"
  | .mul => "*"
  | .div => "/"
  | .mod => "mod"
  | .negate => "negate"
  | .onePlus => "1+"
  | .oneMinus => "1-"
  | .abs => "abs"
  | .max => "max"
  | .min => "min"
  | .and => "and"
  | .or => "or"
  | .xor => "xor"
  | .invert => "invert"
  | .leftShift => "lshift"
  | .rightShift => "rshift"
  | .equal => "="
  | .notEqual => "<>"
  | .less => "<"
  | .greater => ">"
  | .zeroEqual => "0="
  | .zeroLess => "0<"
  | .zeroGreater => "0>"
  | .fetch => "@"
  | .store => "!"
  | .fetchByte => "c@"
  | .storeByte => "c!"
  | .plusStore => "+!"
  | .toReturn => ">r"
  | .fromReturn => "r>"
  | .returnFetch => "r@"
  | .emit => "emit"
  | .newline => "cr"
  | .dot => "."
  | .bye => "bye"

/-- The built-in word that a text spells in any letter case. -/
def lookup? (word : String) : Option Primitive :=
  all.find? fun primitive => sameWord primitive.name word

theorem mem_all (primitive : Primitive) : primitive ∈ all := by
  cases primitive <;> decide

end Primitive

end ForthElf
