import ForthElf.Source.Literal
import ForthElf.Source.Position
import ForthElf.Text.Case

/-!
# Tokens

* `Token` — a word of the source with the place of its first character;
* `Keyword` — the words that the compiler itself gives a meaning to;
* `TokenClass.ofText` — keyword, number literal or plain word, tried in this order.
-/

namespace ForthElf

open Text

/-- A word of the source text. -/
structure Token where
  text : String
  pos : Position
deriving DecidableEq

/-- The words that define names or steer the flow of control. -/
inductive Keyword where
  | colon
  | semicolon
  | «variable»
  | «if»
  | «else»
  | «then»
  | «begin»
  | «until»
  | «again»
  | «while»
  | «repeat»
  | «do»
  | loop
  | plusLoop
  | loopIndex
  | outerLoopIndex
  | unloop
  | exit
  | recurse
deriving DecidableEq

namespace Keyword

def all : List Keyword :=
  [.colon, .semicolon, .«variable», .«if», .«else», .«then», .«begin», .«until», .«again»,
   .«while», .«repeat», .«do», .loop, .plusLoop, .loopIndex, .outerLoopIndex, .unloop, .exit,
   .recurse]

def spelling : Keyword → String
  | .colon => ":"
  | .semicolon => ";"
  | .«variable» => "variable"
  | .«if» => "if"
  | .«else» => "else"
  | .«then» => "then"
  | .«begin» => "begin"
  | .«until» => "until"
  | .«again» => "again"
  | .«while» => "while"
  | .«repeat» => "repeat"
  | .«do» => "do"
  | .loop => "loop"
  | .plusLoop => "+loop"
  | .loopIndex => "i"
  | .outerLoopIndex => "j"
  | .unloop => "unloop"
  | .exit => "exit"
  | .recurse => "recurse"

/-- The keyword that a word spells in any letter case. -/
def lookup? (word : String) : Option Keyword :=
  all.find? fun keyword => sameWord keyword.spelling word

theorem mem_all (keyword : Keyword) : keyword ∈ all := by
  cases keyword <;> decide

end Keyword

/-- What the compiler takes a token for. -/
inductive TokenClass where
  | keyword (keyword : Keyword)
  | number (literal : Literal)
  | word
deriving DecidableEq

def TokenClass.ofText (text : String) : TokenClass :=
  match Keyword.lookup? text with
  | some found => .keyword found
  | none =>
    match Literal.parse? text with
    | some value => .number value
    | none => .word

def Token.class (t : Token) : TokenClass :=
  .ofText t.text

end ForthElf
