import ForthElf.Machine.State
import ForthElf.Word.Primitive

/-!
# What the built-in words mean

* `World` — what a program sees: the two stacks, memory, and what was printed;
* `Primitive.effect` — what a built-in word does to it.

Cells are 64-bit numbers in two's complement, and a stack is a list with its top first.  A word that finds too few
cells, or divides by zero or beyond the range of a cell, has no meaning.
-/

namespace ForthElf

abbrev Cell := BitVec 64

/-- What a program sees. -/
structure World where
  data : List Cell := []
  ret : List Cell := []
  mem : Memory := fun _ => 0
  output : List UInt8 := []

inductive Effect where
  | goesOn (w : World)
  | halts
  | undefined

/-- The cell for a truth value: all bits set, or none. -/
def Cell.ofBool (b : Bool) : Cell :=
  if b then BitVec.allOnes 64 else 0

/-- The decimal digits of a number as characters. -/
def decimalDigits (n : Nat) : List UInt8 :=
  if n < 10 then [UInt8.ofNat (48 + n)] else decimalDigits (n / 10) ++ [UInt8.ofNat (48 + n % 10)]
termination_by n

/-- A cell as it is printed: a minus sign if negative, the digits, and a space. -/
def Cell.printed (c : Cell) : List UInt8 :=
  (if c.toInt < 0 then [45] else []) ++ decimalDigits c.toInt.natAbs ++ [32]

/-- Whether a division has a quotient that fits a cell. -/
def Cell.divides (divisor dividend : Cell) : Bool :=
  divisor != 0 && !(dividend == BitVec.intMin 64 && divisor == BitVec.allOnes 64)

namespace World

def withData (w : World) (data : List Cell) : Effect :=
  .goesOn { w with data }

/-- A word on the top cell. -/
def onTop (w : World) (f : Cell → Cell) : Effect :=
  match w.data with
  | a :: rest => w.withData (f a :: rest)
  | _ => .undefined

/-- A word on the two upper cells; the lower one comes first. -/
def onTwo (w : World) (f : Cell → Cell → Cell) : Effect :=
  match w.data with
  | b :: a :: rest => w.withData (f a b :: rest)
  | _ => .undefined

/-- A division of the two upper cells. -/
def dividing (w : World) (f : Cell → Cell → Cell) : Effect :=
  match w.data with
  | b :: a :: rest => if Cell.divides b a then w.withData (f a b :: rest) else .undefined
  | _ => .undefined

/-- A word that stores the cell below an address. -/
def storing (w : World) (f : Memory → Cell → Cell → Memory) : Effect :=
  match w.data with
  | address :: value :: rest => .goesOn { w with data := rest, mem := f w.mem address value }
  | _ => .undefined

/-- Prints characters and replaces the data stack. -/
def print (w : World) (data : List Cell) (text : List UInt8) : Effect :=
  .goesOn { w with data, output := w.output ++ text }

end World

def Cell.lowByte (c : Cell) : UInt8 :=
  UInt8.ofNat c.toNat

def Primitive.effect (p : Primitive) (w : World) : Effect :=
  match p with
  | .dup => match w.data with
    | a :: rest => w.withData (a :: a :: rest)
    | _ => .undefined
  | .drop => match w.data with
    | _ :: rest => w.withData rest
    | _ => .undefined
  | .swap => match w.data with
    | b :: a :: rest => w.withData (a :: b :: rest)
    | _ => .undefined
  | .over => match w.data with
    | b :: a :: rest => w.withData (a :: b :: a :: rest)
    | _ => .undefined
  | .nip => match w.data with
    | b :: _ :: rest => w.withData (b :: rest)
    | _ => .undefined
  | .rot => match w.data with
    | c :: b :: a :: rest => w.withData (a :: c :: b :: rest)
    | _ => .undefined
  | .minusRot => match w.data with
    | c :: b :: a :: rest => w.withData (b :: a :: c :: rest)
    | _ => .undefined
  | .tuck => match w.data with
    | b :: a :: rest => w.withData (b :: a :: b :: rest)
    | _ => .undefined
  | .twoDup => match w.data with
    | b :: a :: rest => w.withData (b :: a :: b :: a :: rest)
    | _ => .undefined
  | .questionDup => match w.data with
    | a :: rest => w.withData (if a = 0 then a :: rest else a :: a :: rest)
    | _ => .undefined
  | .add => w.onTwo (· + ·)
  | .sub => w.onTwo (· - ·)
  | .mul => w.onTwo (· * ·)
  | .div => w.dividing BitVec.sdiv
  | .mod => w.dividing BitVec.srem
  | .negate => w.onTop (- ·)
  | .onePlus => w.onTop (· + 1)
  | .oneMinus => w.onTop (· - 1)
  | .abs => w.onTop fun a => if a.msb then -a else a
  | .max => w.onTwo fun a b => if a.slt b then b else a
  | .min => w.onTwo fun a b => if b.slt a then b else a
  | .and => w.onTwo (· &&& ·)
  | .or => w.onTwo (· ||| ·)
  | .xor => w.onTwo (· ^^^ ·)
  | .invert => w.onTop (~~~ ·)
  | .leftShift => w.onTwo fun a b => a <<< (b.toNat % 64)
  | .rightShift => w.onTwo fun a b => a >>> (b.toNat % 64)
  | .equal => w.onTwo fun a b => Cell.ofBool (a == b)
  | .notEqual => w.onTwo fun a b => Cell.ofBool (a != b)
  | .less => w.onTwo fun a b => Cell.ofBool (a.slt b)
  | .greater => w.onTwo fun a b => Cell.ofBool (b.slt a)
  | .zeroEqual => w.onTop fun a => Cell.ofBool (a == 0)
  | .zeroLess => w.onTop fun a => Cell.ofBool (a.slt 0)
  | .zeroGreater => w.onTop fun a => Cell.ofBool (BitVec.slt 0 a)
  | .fetch => w.onTop w.mem.cell
  | .store => w.storing Memory.setCell
  | .fetchByte => w.onTop fun address => BitVec.ofNat 64 (w.mem address).toNat
  | .storeByte => w.storing fun mem address value => mem.set address value.lowByte
  | .plusStore => w.storing fun mem address value =>
    mem.setCell address (mem.cell address + value)
  | .toReturn => match w.data with
    | a :: rest => .goesOn { w with data := rest, ret := a :: w.ret }
    | _ => .undefined
  | .fromReturn => match w.ret with
    | a :: ret => .goesOn { w with data := a :: w.data, ret }
    | _ => .undefined
  | .returnFetch => match w.ret with
    | a :: _ => w.withData (a :: w.data)
    | _ => .undefined
  | .emit => match w.data with
    | a :: rest => w.print rest [a.lowByte]
    | _ => .undefined
  | .newline => w.print w.data [10]
  | .dot => match w.data with
    | a :: rest => w.print rest a.printed
    | _ => .undefined
  | .bye => .halts

end ForthElf
