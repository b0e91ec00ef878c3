/-!
# Digits

* `digitValue? radix c` — the value of the digit `c`, if it is one in `radix`;
* `readDigits? radix cs` — the number that a non-empty list of digits denotes;
* `hex n`, `hexPadded width n`, `upperHex n`, `byteHex b` — hexadecimal texts.
-/

namespace ForthElf.Text

/-! ### Reading -/

/-- The value of a hexadecimal digit in either letter case. -/
def hexValue? (c : Char) : Option Nat :=
  if '0' ≤ c ∧ c ≤ '9' then some (c.toNat - '0'.toNat)
  else if 'a' ≤ c ∧ c ≤ 'f' then some (10 + (c.toNat - 'a'.toNat))
  else if 'A' ≤ c ∧ c ≤ 'F' then some (10 + (c.toNat - 'A'.toNat))
  else none

/-- The value of `c` as a digit of `radix`, which is at most sixteen. -/
def digitValue? (radix : Nat) (c : Char) : Option Nat :=
  (hexValue? c).filter fun value => value < radix

/-- Reads on after the digits whose value is `value`. -/
def readMore? (radix value : Nat) : List Char → Option Nat
  | [] => some value
  | c :: cs =>
    match digitValue? radix c with
    | some digit => readMore? radix (radix * value + digit) cs
    | none => none

/-- The number that `cs` denotes in `radix`; `none` unless `cs` is a non-empty list of digits. -/
def readDigits? (radix : Nat) (cs : List Char) : Option Nat :=
  if cs.isEmpty then none else readMore? radix 0 cs

/-! ### Writing -/

/-- The hexadecimal digit of a value below sixteen, in lower case. -/
def hexDigit (value : Nat) : Char :=
  if value < 10 then Char.ofNat ('0'.toNat + value) else Char.ofNat ('a'.toNat + (value - 10))

/-- The hexadecimal digits of `n`, most significant first, in front of `tail`. -/
def hexDigitsOnto (n : Nat) (tail : List Char) : List Char :=
  if n < 16 then hexDigit n :: tail else hexDigitsOnto (n / 16) (hexDigit (n % 16) :: tail)
termination_by n

/-- The hexadecimal digits of `n` in lower case, without leading zeros. -/
def hex (n : Nat) : String :=
  String.ofList (hexDigitsOnto n [])

/-- `hex n` with zeros in front up to `width` digits. -/
def hexPadded (width n : Nat) : String :=
  String.ofList ((hexDigitsOnto n []).leftpad width '0')

def upperHex (n : Nat) : String :=
  (hex n).toUpper

def byteHex (b : UInt8) : String :=
  String.ofList [hexDigit (b.toNat / 16), hexDigit (b.toNat % 16)]

def bytesHex (bs : List UInt8) : String :=
  String.join (bs.map byteHex)

end ForthElf.Text
