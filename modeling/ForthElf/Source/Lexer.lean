import ForthElf.Error
import ForthElf.Source.Token
import ForthElf.Text.Blank

/-!
# Splitting a source text into tokens

A *run* is a longest block of characters that are not blank.  The run `\` hides the rest of its line,
the run `(` hides everything up to the next `)`, and every other run is a token.

* `tokenizeFrom p cs` — the tokens of the characters `cs` that start at position `p`;
* `tokenize source` — the tokens of a whole text.
-/

namespace ForthElf

open Text

/-- Whether a character belongs to a run. -/
def isInk (c : Char) : Bool := !isBlank c

/-- The longest run at the front of `cs`. -/
def run (cs : List Char) : List Char := cs.takeWhile isInk

/-- What stands behind the longest run at the front of `cs`. -/
def afterRun (cs : List Char) : List Char := cs.dropWhile isInk

/-- The characters up to the end of the line. -/
def restOfLine (cs : List Char) : List Char := cs.takeWhile (· != '\n')

/-- What stands behind the rest of the line, its line feed included. -/
def afterLine (cs : List Char) : List Char := cs.dropWhile (· != '\n')

/-- The characters of a comment up to its closing parenthesis. -/
def commentText (cs : List Char) : List Char := cs.takeWhile (· != ')')

/-- What follows the text of a comment: the closing parenthesis first, unless there is none. -/
def afterComment (cs : List Char) : List Char := cs.dropWhile (· != ')')

theorem run_append_afterRun (cs : List Char) : run cs ++ afterRun cs = cs :=
  List.takeWhile_append_dropWhile

theorem length_afterRun_le (cs : List Char) : (afterRun cs).length ≤ cs.length :=
  (List.dropWhile_suffix _).length_le

theorem length_afterLine_le (cs : List Char) : (afterLine cs).length ≤ cs.length :=
  (List.dropWhile_suffix _).length_le

theorem length_afterComment_le (cs : List Char) : (afterComment cs).length ≤ cs.length :=
  (List.dropWhile_suffix _).length_le

/-- The tokens of `cs`, which start at `pos`, behind the tokens `done` in reverse. -/
def tokenizeOnto (done : List Token) (pos : Position) (cs : List Char) :
    Except Error (List Token) :=
  match cs with
  | [] => .ok done.reverse
  | c :: rest =>
    if isBlank c then tokenizeOnto done (pos.step c) rest
    else
      let word := c :: run rest
      let behind := afterRun rest
      if word = ['\\'] then
        tokenizeOnto done ((pos.after word).after (restOfLine behind)) (afterLine behind)
      else if word = ['('] then
        match _hclose : afterComment behind with
        | [] => .error (.unterminatedComment pos)
        | close :: tail =>
          tokenizeOnto done (((pos.after word).after (commentText behind)).step close) tail
      else tokenizeOnto (⟨String.ofList word, pos⟩ :: done) (pos.after word) behind
termination_by cs.length
decreasing_by
  all_goals simp only [List.length_cons]
  · omega
  · exact Nat.lt_succ_of_le (Nat.le_trans (length_afterLine_le _) (length_afterRun_le _))
  · have := Nat.le_trans (length_afterComment_le _) (length_afterRun_le rest)
    rw [_hclose, List.length_cons] at this
    omega
  · exact Nat.lt_succ_of_le (length_afterRun_le _)

def tokenizeFrom (pos : Position) (cs : List Char) : Except Error (List Token) :=
  tokenizeOnto [] pos cs

def tokenize (source : String) : Except Error (List Token) :=
  tokenizeFrom .start source.toList

end ForthElf
