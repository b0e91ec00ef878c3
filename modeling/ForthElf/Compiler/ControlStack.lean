import ForthElf.Error

/-!
# Open control constructs

* `Construct` — an open construct with the code places its closing words need;
* `Frame` — a construct with the place of its opening word and the place of the top cell at its branch;
* `ControlStack` — the open constructs, innermost first.

A closing word takes the innermost construct if it is of the right kind, and leaves the stack alone otherwise.
-/

namespace ForthElf

/-- An open control construct.  A *site* is a branch field to be patched, a *target* a place to branch back to. -/
inductive Construct where
  | «if» (site : Nat)
  | «else» (site : Nat)
  | «begin» (target : Nat)
  | «while» (target site : Nat)
  | «do» (body : Nat)
deriving DecidableEq

def Construct.opener : Construct → String
  | .«if» _ => "if"
  | .«else» _ => "else"
  | .«begin» _ => "begin"
  | .«while» _ _ => "while"
  | .«do» _ => "do"

def Construct.isLoop : Construct → Bool
  | .«do» _ => true
  | _ => false

/-- An open construct in its source context. -/
structure Frame where
  construct : Construct
  pos : Position
  state : CacheState
deriving DecidableEq

/-- The open constructs, innermost first. -/
abbrev ControlStack := List Frame

namespace ControlStack

def openLoops (stack : ControlStack) : Nat :=
  stack.countP (·.construct.isLoop)

/-- Fails at the innermost construct that is still open. -/
def ensureClosed : ControlStack → Except Error Unit
  | [] => .ok ()
  | frame :: _ => .error (.unclosedControl frame.construct.opener frame.pos)

/-- Takes the innermost construct for the closing word `word` at `pos`, if `select` accepts it. -/
def popFor {α : Type} (word : String) (pos : Position) (select : Construct → Option α) :
    ControlStack → Except Error ((α × Frame) × ControlStack)
  | [] => .error (.unbalancedControl word pos .nothingOpen)
  | frame :: rest =>
    match select frame.construct with
    | some selected => .ok ((selected, frame), rest)
    | none => .error (.unbalancedControl word pos .otherOpen)

@[simp] theorem openLoops_nil : openLoops [] = 0 := rfl

theorem openLoops_cons (frame : Frame) (stack : ControlStack) :
    openLoops (frame :: stack) = openLoops stack + if frame.construct.isLoop then 1 else 0 := by
  simp [openLoops, List.countP_cons]

theorem ensureClosed_eq_ok_iff {stack : ControlStack} : ensureClosed stack = .ok () ↔ stack = [] := by
  cases stack <;> simp [ensureClosed]

theorem popFor_eq_ok {α : Type} {word : String} {pos : Position} {select : Construct → Option α}
    {stack rest : ControlStack} {selected : α} {frame : Frame}
    (h : popFor word pos select stack = .ok ((selected, frame), rest)) :
    stack = frame :: rest ∧ select frame.construct = some selected := by
  cases stack with
  | nil => simp [popFor] at h
  | cons top below =>
    simp only [popFor] at h
    split at h
    · next heq =>
      cases h
      exact ⟨rfl, heq⟩
    · cases h

end ControlStack

end ForthElf
