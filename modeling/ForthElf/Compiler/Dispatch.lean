import ForthElf.Compiler.Control
import ForthElf.Compiler.Definition
import ForthElf.Source.Token

/-!
# Compiling tokens

* `Compiler.compileWord` — a plain word: built-in, defined, defined later, or passed over, tried in this order;
* `Compiler.compileTokens` — a list of tokens from left to right, up to the first error;
* `Compiler.headersFrom` — the definition headers of a list of tokens.
-/

namespace ForthElf.Compiler

/-! ### Plain words -/

/-- The cells on the return stack after a built-in word. -/
def returnCellsAfter (p : Primitive) (cells : Nat) : Nat :=
  match p with
  | .toReturn => cells + 1
  | .fromReturn => cells - 1
  | _ => cells

def compilePrimitive (p : Primitive) : Compile Unit := do
  beginCode
  emitter (Emitter.primitive (← get).printNumber p)
  modify fun s => { s with returnCells := returnCellsAfter p s.returnCells }
  count (·.countPrimitive p)

/-- Compiles a use of a defined name. -/
def compileMeaning (meaning : Meaning) : Compile Unit := do
  beginCode
  match meaning with
  | .code offset =>
    emitting (·.spill)
    emitter (Emitter.branchTo .call offset)
    count (·.countCall)
  | .cell address => emitting (·.literal address.toBitVec)

/-- Compiles a call to a definition that is still ahead. -/
def compileForwardCall (token : Token) : Compile Unit := do
  beginCode
  emitting (·.spill)
  let site ← placeholder .call
  modify fun s => { s with forward := s.forward.await ⟨token.text, site, token.pos⟩ }
  count (·.countCall)

def skipWord (token : Token) : Compile Unit := do
  let warning : Warning := ⟨token.pos, token.text⟩
  note (.skipped warning)
  modify fun s => { s with warnings := s.warnings.push warning }
  count (·.countUnresolved)

/-- Compiles the plain word with the given token index. -/
def compileWord (token : Token) (index : Nat) : Compile Unit := do
  match Primitive.lookup? token.text with
  | some p => compilePrimitive p
  | none =>
    let s ← get
    match s.dictionary.find? token.text with
    | some entry => compileMeaning entry.meaning
    | none =>
      if s.options.forwardRefs ∧ s.forward.announcedAfter token.text index then
        compileForwardCall token
      else if s.options.bestEffort then skipWord token
      else throw (.unresolvedWord token.text token.pos)

def compileNumber (token : Token) : Literal → Compile Unit
  | .cell value => do
    beginCode
    emitting (·.literal value)
    count (·.countLiteral)
  | .outOfRange => throw (.literalOutOfRange token.text token.pos)

/-! ### Tokens -/

/-- Compiles a keyword that takes no name. -/
def compileKeyword (token : Token) : Keyword → Compile Unit
  | .colon => throw (.missingName ":" token.pos)
  | .«variable» => throw (.missingName "variable" token.pos)
  | .semicolon => endDefinition token.pos
  | .«if» => compileIf token.pos
  | .«else» => compileElse token.pos
  | .«then» => compileThen token.pos
  | .«begin» => compileBegin token.pos
  | .«until» => compileUntil token.pos
  | .«again» => compileAgain token.pos
  | .«while» => compileWhile token.pos
  | .«repeat» => compileRepeat token.pos
  | .«do» => compileDo token.pos
  | .loop => compileLoop token.pos
  | .plusLoop => compilePlusLoop token.pos
  | .loopIndex => compileLoopIndex "i" 0 token.pos
  | .outerLoopIndex => compileLoopIndex "j" 1 token.pos
  | .unloop => compileUnloop token.pos
  | .exit => compileExit token
  | .recurse => compileRecurse token

/-- Compiles a token that takes no name; `index` is its index. -/
def compileToken (token : Token) (index : Nat) : Compile Unit :=
  match token.class with
  | .keyword keyword => compileKeyword token keyword
  | .number literal => compileNumber token literal
  | .word => compileWord token index

/-- Logs and counts a token. -/
def meetToken (token : Token) : Compile Unit := do
  note (.token token.pos token.text (← get).cache.state)
  count (·.countToken)

/-- Compiles tokens, the first of which has the given index.  A colon and `variable` take the next token as a name. -/
def compileFrom (index : Nat) : List Token → Compile Unit
  | [] => pure ()
  | [token] => do
    meetToken token
    compileToken token index
  | token :: name :: rest => do
    meetToken token
    if token.class = .keyword .colon then
      beginDefinition name token.pos
      compileFrom (index + 2) rest
    else if token.class = .keyword .«variable» then
      defineVariable name token.pos
      compileFrom (index + 2) rest
    else
      compileToken token index
      compileFrom (index + 1) (name :: rest)

/-! ### Headers -/

/-- The definition headers of tokens, the first of which has the given index.  Names are passed over as in
`compileFrom`. -/
def headersFrom (index : Nat) : List Token → List Header
  | [] => []
  | [_] => []
  | token :: name :: rest =>
    if token.class = .keyword .colon then ⟨name.text, index⟩ :: headersFrom (index + 2) rest
    else if token.class = .keyword .«variable» then headersFrom (index + 2) rest
    else headersFrom (index + 1) (name :: rest)

/-- Announces the definitions of a list of tokens if words may be called ahead of their definition. -/
def announceHeaders (tokens : List Token) : Compile Unit :=
  modify fun s =>
    if s.options.forwardRefs then
      { s with forward := (headersFrom 0 tokens).foldl ForwardCalls.announce s.forward }
    else s

/-- Compiles a list of tokens, up to the first error. -/
def compileTokens (tokens : List Token) : Compile Unit := do
  announceHeaders tokens
  compileFrom 0 tokens

end ForthElf.Compiler
