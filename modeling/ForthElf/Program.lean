import ForthElf.Compiler.Dispatch
import ForthElf.Image.Layout
import ForthElf.Source.Lexer

/-!
# Programs

* `Program` — a compiled program: its code, the executable file and what is known about them;
* `Compiler.finish` — ends the main program and builds the file;
* `compile` — a program from its source text, `compileLogged` with the log.
-/

namespace ForthElf

structure Program where
  /-- The executable file. -/
  image : List UInt8
  code : List UInt8
  /-- The start of the main program. -/
  entryOffset : Nat
  layout : Layout
  /-- The number printing routine, the start, and every definition in order. -/
  labels : List Label
  warnings : List Warning
  stats : Statistics

namespace Program

def entryAddress (p : Program) : UInt64 :=
  p.layout.codeAddress p.entryOffset

/-- The listing of the code at its place in memory. -/
def listing (p : Program) : String :=
  ForthElf.listing (p.layout.codeAddress 0) p.labels p.code

end Program

namespace Compiler

/-- Fails if anything is left open: a definition, a construct or a waiting call. -/
def ensureComplete (s : Compiler) : Except Error Unit :=
  match s.current with
  | some definition => .error (.unterminatedDefinition definition.name definition.pos)
  | none =>
    match s.control.ensureClosed with
    | .error error => .error error
    | .ok () =>
      match s.forward.first? with
      | some call => .error (.unresolvedForwardCall call.name call.pos)
      | none => .ok ()

/-- Ends the main program with the status zero. -/
def endProgram : Compile Unit := do
  beginCode
  emitting fun e => e.spill.emitBlock (exitBlock 0)

def programLabels (s : Compiler) (entry : Nat) : List Label :=
  ⟨s.printNumber, "print_number"⟩ :: ⟨entry, "_start"⟩ :: s.dictionary.labels

/-- The program for the code so far. -/
def build : Compile Program := do
  let s ← get
  let entryOffset := s.entry.getD 0
  let limit := s.options.codeLimit headerSize
  if limit < s.offset then throw (.codeTooLarge s.offset limit)
  count (·.close s.cache.spills s.cache.fills s.offset)
  let layout ← require (Layout.ofOptions s.options s.cells)
  let code := s.code.bytes.toList
  let image := buildImage code entryOffset layout
  note (.imageBuilt image.length (layout.codeAddress entryOffset) layout.dataBase layout.dataSize)
  return {
    image, code, entryOffset, layout
    labels := s.programLabels entryOffset
    warnings := s.warnings.toList
    stats := (← get).stats }

/-- Ends the program and builds the file. -/
def finish : Compile Program := do
  require (← get).ensureComplete
  endProgram
  build

/-- Compiles a piece of source text behind what was compiled before.  Places are counted from the start of the piece. -/
def compileChunk (source : String) : Compile Unit := do
  compileTokens (← require (tokenize source))

def compileProgram (tokens : List Token) : Compile Program := do
  compileTokens tokens
  finish

end Compiler

structure Logged (α : Type) where
  result : Except Error α
  log : List Event

/-- Runs the compiler from a state. -/
def Compiler.runFrom {α : Type} (s : Compiler) (action : Compile α) : Logged α :=
  match action s with
  | .ok a s => ⟨.ok a, s.log.toList⟩
  | .error error s => ⟨.error error, s.log.toList⟩

def compileLogged (source : String) (options : Options) : Logged Program :=
  match tokenize source with
  | .error error => ⟨.error error, []⟩
  | .ok tokens =>
    match Compiler.start options with
    | .error error => ⟨.error error, []⟩
    | .ok s => s.runFrom (Compiler.compileProgram tokens)

def compile (source : String) (options : Options) : Except Error Program :=
  (compileLogged source options).result

end ForthElf
