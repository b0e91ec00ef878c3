/-!
# Source positions

* `Position` — a line and a column, both counted from one; a column counts characters;
* `Position.after p cs` — the position right behind the characters `cs` that start at `p`.
-/

namespace ForthElf

/-- A place in a source text. -/
structure Position where
  line : Nat
  column : Nat
deriving DecidableEq

namespace Position

def start : Position := ⟨1, 1⟩

/-- The place behind one character: a line feed starts the next line. -/
def step (p : Position) (c : Char) : Position :=
  if c = '\n' then ⟨p.line + 1, 1⟩ else ⟨p.line, p.column + 1⟩

/-- The place behind a list of characters. -/
def after (p : Position) (cs : List Char) : Position :=
  cs.foldl step p

@[simp] theorem after_nil (p : Position) : p.after [] = p := rfl

@[simp] theorem after_cons (p : Position) (c : Char) (cs : List Char) :
    p.after (c :: cs) = (p.step c).after cs := rfl

theorem after_append (p : Position) (cs ds : List Char) :
    p.after (cs ++ ds) = (p.after cs).after ds :=
  List.foldl_append

def text (p : Position) : String :=
  s!"{p.line}:{p.column}"

end Position

end ForthElf
