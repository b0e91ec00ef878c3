/-!
# Lines

* `lines` — the lines of a text: a line ends at a line feed, and a carriage return right in front of it belongs to the
  end;
* `indentLines` — a text whose lines behind the first are indented.
-/

namespace ForthElf.Text

/-- The line that a line feed ends, from its characters in reverse. -/
def endLine : List Char → String
  | '\r' :: reversed => String.ofList reversed.reverse
  | reversed => String.ofList reversed.reverse

/-- The lines of a text behind the lines `done` and the characters `line` of an open line, both in reverse. -/
def linesOnto (done : List String) (line : List Char) : List Char → List String
  | [] => (if line.isEmpty then done else String.ofList line.reverse :: done).reverse
  | c :: cs => if c = '\n' then linesOnto (endLine line :: done) [] cs else linesOnto done (c :: line) cs

def lines (text : String) : List String :=
  linesOnto [] [] text.toList

/-- Puts `width` blanks behind every line feed. -/
def indentLines (width : Nat) (text : String) : String :=
  String.ofList (text.toList.flatMap fun c => if c = '\n' then c :: List.replicate width ' ' else [c])

end ForthElf.Text
