/-!
# Control sequences

A log may quote any text, but it must not drive the terminal that shows it.  So control characters are taken out of
it, and with them the sequences that start with an escape character.

* `Sequence` — how far a control sequence has been read;
* `Sequence.next`, `Sequence.shows` — the sequence behind a character, and whether the character is shown;
* `stripControls` — the text that is left.

Tabs and line ends are shown even inside a sequence.  Such a break suspends the sequence: what follows is shown up to
the next control character, and there the sequence goes on.
-/

namespace ForthElf.Text

/-! ### Characters -/

/-- Tabs and line ends. -/
def isBreak (c : Char) : Bool :=
  c == '\t' || c == '\n' || c == '\x0c' || c == '\r'

/-- Whether a character is shown in plain text: it is a break or no control character of the ASCII range. -/
def isShown (c : Char) : Bool :=
  isBreak c || (' ' ≤ c && c != '\x7f')

def isAscii (c : Char) : Bool :=
  c < '\x80'

/-- Whether the byte that terminates a control string is among the bytes of a character. -/
def holdsTerminator (c : Char) : Bool :=
  (String.utf8EncodeChar c).contains 0x9C

/-! ### Sequences -/

/-- How far a control sequence has been read. -/
inductive Sequence where
  /-- There is none. -/
  | plain
  /-- The escape character. -/
  | escape
  /-- An escape sequence of more than two characters. -/
  | escapeMore
  /-- A sequence of parameters and a final letter. -/
  | parameters
  /-- The start of a device control string. -/
  | deviceStart
  /-- The parameters of a device control string. -/
  | deviceParameters
  /-- The characters behind the parameters of a device control string. -/
  | deviceMore
  /-- A control string, up to its terminator. -/
  | string
  /-- A command to the operating system, up to its terminator or a bell. -/
  | command
deriving DecidableEq

namespace Sequence

/-- The sequence behind a character of the ASCII range that neither starts nor cancels one. -/
def continued (s : Sequence) (c : Char) : Sequence :=
  match s with
  | .plain => .plain
  | .escape =>
    if c = '[' then .parameters
    else if c = ']' then .command
    else if c = 'P' then .deviceStart
    else if c = 'X' ∨ c = '^' ∨ c = '_' then .string
    else if ' ' ≤ c ∧ c ≤ '/' then .escapeMore
    else if '0' ≤ c ∧ c ≤ '~' then .plain
    else .escape
  | .escapeMore => if '0' ≤ c ∧ c ≤ '~' then .plain else .escapeMore
  | .parameters => if '@' ≤ c ∧ c ≤ '~' then .plain else .parameters
  | .deviceStart =>
    if ' ' ≤ c ∧ c ≤ '/' then .deviceMore
    else if '0' ≤ c ∧ c ≤ '?' then .deviceParameters
    else if '@' ≤ c ∧ c ≤ '~' then .string
    else .deviceStart
  | .deviceParameters =>
    if ' ' ≤ c ∧ c ≤ '/' then .deviceMore
    else if '<' ≤ c ∧ c ≤ '~' then .string
    else .deviceParameters
  | .deviceMore => if '0' ≤ c ∧ c ≤ '~' then .string else .deviceMore
  | .string => .string
  | .command => if c = '\x07' then .plain else .command

/-- The sequence behind a character.  An escape character starts a new sequence, and two characters cancel every
sequence. -/
def next (s : Sequence) (c : Char) : Sequence :=
  if c = '\x1b' then .escape
  else if c = '\x18' ∨ c = '\x1a' then .plain
  else if isAscii c then s.continued c
  else if s = .string ∧ holdsTerminator c then .plain
  else s

/-- Whether a character that follows a sequence is shown. -/
def shows (s : Sequence) (c : Char) : Bool :=
  match s with
  | .plain => isShown c
  | .escape | .escapeMore | .parameters => isBreak c
  | _ => false

end Sequence

/-! ### Texts -/

/-- What is shown of a text behind a sequence, which a break may have suspended. -/
def stripFrom (s : Sequence) (suspended : Bool) : List Char → List Char
  | [] => []
  | c :: cs =>
    if (if suspended then isShown c else s.shows c) then
      c :: stripFrom (if isAscii c then s else .plain) true cs
    else stripFrom (s.next c) false cs

/-- The text without control characters and control sequences. -/
def stripControls (text : String) : String :=
  String.ofList (stripFrom .plain false text.toList)

end ForthElf.Text
