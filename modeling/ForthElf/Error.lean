import ForthElf.Source.Position
import ForthElf.Text.Digits

/-!
# Errors and warnings

* `Error` — every reason for which a compilation is given up, `Error.message` its text and
  `Error.pos?` the place in the source, if it has one;
* `Warning` — an unresolved word that was passed over.

Each text stands in one function, so a reason and its wording never drift apart.
-/

namespace ForthElf

open Text

/-- The text of a code offset: `0x` and at least four hexadecimal digits. -/
def offsetText (offset : Nat) : String :=
  "0x" ++ hexPadded 4 offset

/-- The text of an address: `0x` and its hexadecimal digits. -/
def addressText (address : UInt64) : String :=
  "0x" ++ hex address.toNat

/-- Where the top cell of the data stack is: in a register, or in memory with the others. -/
inductive CacheState where
  | cached
  | spilled
deriving DecidableEq

def CacheState.text : CacheState → String
  | .cached => "cached"
  | .spilled => "spilled"

/-- Why a closing word does not fit the open constructs. -/
inductive Imbalance where
  /-- No construct is open. -/
  | nothingOpen
  /-- The innermost open construct is of another kind. -/
  | otherOpen
deriving DecidableEq

def Imbalance.text : Imbalance → String
  | .nothingOpen => "has no matching opening word"
  | .otherOpen => "does not match the innermost open construct"

/-- What is wrong with the chosen memory layout. -/
inductive OptionFault where
  | codeBaseUnaligned (codeBase : UInt64)
  | dataBaseUnaligned (dataBase : UInt64)
  | dataBelowCode (dataBase codeBase : UInt64)
  | stackSize (stackSize : UInt64)
  | stackOverflowsAddressSpace (stackSize dataBase : UInt64)
  | dataEndsTooHigh (stackTop : UInt64)
  | tooManyVariables (cells : Nat) (stackSize : UInt64)
deriving DecidableEq

def OptionFault.text : OptionFault → String
  | .codeBaseUnaligned base => s!"code base {addressText base} is not page aligned"
  | .dataBaseUnaligned base => s!"data base {addressText base} is not page aligned"
  | .dataBelowCode data code =>
    s!"data base {addressText data} must lie above code base {addressText code}"
  | .stackSize size => s!"stack size {size.toNat} must be a non-zero multiple of 8"
  | .stackOverflowsAddressSpace size base =>
    s!"stack of {size.toNat} bytes at {addressText base} overflows the address space"
  | .dataEndsTooHigh top => s!"data segment ends at {addressText top}, above the 2 GiB limit"
  | .tooManyVariables count size =>
    s!"{count} variables do not fit above a {size.toNat} byte stack"

/-- Why a compilation is given up. -/
inductive Error where
  /-- A word that is no number, no built-in word and not defined. -/
  | unresolvedWord (word : String) (pos : Position)
  /-- A closing word without its opening word. -/
  | unbalancedControl (word : String) (pos : Position) (reason : Imbalance)
  /-- A construct that is still open at the end of a definition or of the program. -/
  | unclosedControl (opener : String) (pos : Position)
  /-- A definition that is still open at the end of the program. -/
  | unterminatedDefinition (name : String) (pos : Position)
  /-- A definition inside another definition or inside a control construct. -/
  | nestedDefinition (pos : Position)
  /-- A defining word at the very end. -/
  | missingName (word : String) (pos : Position)
  /-- A word that has a meaning inside a definition only. -/
  | outsideDefinition (word : String) (pos : Position)
  /-- A loop word with fewer than `needed` counted loops around it. -/
  | loopWordOutsideLoop (word : String) (needed : Nat) (pos : Position)
  /-- A comment without its closing parenthesis. -/
  | unterminatedComment (pos : Position)
  /-- A number that does not fit a cell. -/
  | literalOutOfRange (text : String) (pos : Position)
  /-- A call to an announced definition that never came. -/
  | unresolvedForwardCall (name : String) (pos : Position)
  /-- Two paths that meet with the top cell in different places. -/
  | cacheMismatch (pos : Position) (expected found : CacheState)
  /-- Code that would run into the data segment. -/
  | codeTooLarge (size limit : Nat)
  | invalidOptions (fault : OptionFault)
  /-- A branch field that is not written yet or out of reach of its target. -/
  | patch (site : Nat)
deriving DecidableEq

namespace Error

def message : Error → String
  | .unresolvedWord word pos => s!"{pos.text}: unresolved word `{word}`"
  | .unbalancedControl word pos reason => s!"{pos.text}: `{word}` {reason.text}"
  | .unclosedControl opener pos => s!"{pos.text}: `{opener}` is never closed"
  | .unterminatedDefinition name pos =>
    s!"{pos.text}: definition of `{name}` is missing its closing `;`"
  | .nestedDefinition pos =>
    s!"{pos.text}: `:` inside a definition or an open control structure"
  | .missingName word pos => s!"{pos.text}: `{word}` expects a name"
  | .outsideDefinition word pos =>
    s!"{pos.text}: `{word}` is only valid inside a colon definition"
  | .loopWordOutsideLoop word needed pos =>
    s!"{pos.text}: `{word}` needs {needed} enclosing do loop(s)"
  | .unterminatedComment pos => s!"{pos.text}: comment is never closed with `)`"
  | .literalOutOfRange text pos =>
    s!"{pos.text}: literal `{text}` does not fit in a 64-bit cell"
  | .unresolvedForwardCall name pos =>
    s!"{pos.text}: forward reference to `{name}` was never resolved"
  | .cacheMismatch pos expected found =>
    s!"{pos.text}: register cache is {found.text} at a merge point, expected {expected.text}"
  | .codeTooLarge size limit => s!"generated code is {size} bytes, limit is {limit}"
  | .invalidOptions fault => s!"invalid options: {fault.text}"
  | .patch site =>
    s!"internal error: patch site {offsetText site} is outside the written code"

def pos? : Error → Option Position
  | .unresolvedWord _ pos
  | .unbalancedControl _ pos _
  | .unclosedControl _ pos
  | .unterminatedDefinition _ pos
  | .nestedDefinition pos
  | .missingName _ pos
  | .outsideDefinition _ pos
  | .loopWordOutsideLoop _ _ pos
  | .unterminatedComment pos
  | .literalOutOfRange _ pos
  | .unresolvedForwardCall _ pos
  | .cacheMismatch pos _ _ => some pos
  | .codeTooLarge .. | .invalidOptions _ | .patch _ => none

end Error

/-- An unresolved word that the compiler passed over. -/
structure Warning where
  pos : Position
  word : String
deriving DecidableEq

def Warning.message (w : Warning) : String :=
  s!"{w.pos.text}: warning: unresolved word `{w.word}` skipped"

end ForthElf
