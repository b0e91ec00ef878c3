import ForthElf.Source.Position
import ForthElf.Text.Case

/-!
# Calls to later definitions

* `ForwardCalls.announce` — notes that a definition header stands at a token index;
* `ForwardCalls.announcedAfter` — whether a name has a header behind a token index;
* `ForwardCalls.await`, `ForwardCalls.take` — calls that wait for their definition.
-/

namespace ForthElf

open Text

/-- A definition header found ahead of compilation. -/
structure Header where
  name : String
  index : Nat
deriving DecidableEq

/-- A call whose definition is not compiled yet. -/
structure WaitingCall where
  name : String
  site : Nat
  pos : Position
deriving DecidableEq

/-- The announced definitions and the calls that wait for one, oldest first. -/
structure ForwardCalls where
  headers : List Header := []
  waiting : List WaitingCall := []
deriving DecidableEq

namespace ForwardCalls

def announce (f : ForwardCalls) (header : Header) : ForwardCalls :=
  { f with headers := f.headers ++ [header] }

/-- Whether a header of the name stands behind a token index. -/
def announcedAfter (f : ForwardCalls) (name : String) (index : Nat) : Bool :=
  f.headers.any fun header => sameWord header.name name && index < header.index

def await (f : ForwardCalls) (call : WaitingCall) : ForwardCalls :=
  { f with waiting := f.waiting ++ [call] }

def sitesOf (f : ForwardCalls) (name : String) : List Nat :=
  (f.waiting.filter fun call => sameWord call.name name).map (·.site)

/-- Forgets the calls that wait for a name. -/
def resolve (f : ForwardCalls) (name : String) : ForwardCalls :=
  { f with waiting := f.waiting.filter fun call => !sameWord call.name name }

def first? (f : ForwardCalls) : Option WaitingCall :=
  f.waiting.head?

end ForwardCalls

end ForthElf
