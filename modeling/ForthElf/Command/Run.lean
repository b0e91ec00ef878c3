import ForthElf.Command.Arguments
import ForthElf.Command.FileTree
import ForthElf.Program
import ForthElf.Text.ControlSequence
import ForthElf.Text.Lines

/-!
# Running the command line

* `FileAccess m` — how a run reads and writes files; the system's files and a `FileTree` both offer it;
* `Command.execute` — a run with given arguments, over any access to files;
* `Command.run` — a run over a `FileTree`.

A program is written only after the whole source has been compiled.
-/

namespace ForthElf

structure FileAccess (m : Type → Type) where
  read : String → m (Except FileFault (List UInt8))
  /-- Writes an executable file. -/
  write : String → List UInt8 → m (Except FileFault Unit)

def FileTree.access : FileAccess (StateM FileTree) where
  read path := do return (← get).read path
  write path content := do
    match (← get).write path content with
    | .ok tree =>
      set tree
      return .ok ()
    | .error fault => return .error fault

structure Report where
  status : Nat
  stdout : String := ""
  stderr : String := ""
deriving DecidableEq

def Report.errorLines (r : Report) : List String :=
  Text.lines r.stderr

namespace Command

inductive Failure where
  | source (error : Error)
  | file (path : String) (fault : FileFault)
deriving DecidableEq

/-- The text of a failure; one with a place in the source is shown behind the name of the input. -/
def Failure.message (input : String) : Failure → String
  | .source error =>
    match error.pos? with
    | some _ => s!"{input}:{error.message}"
    | none => s!"error: {error.message}"
  | .file path fault => s!"error: I/O error for file {path}: {fault.text}"

/-- What the log shows of an event: the level in a column of five, where it happened and the message, whose further
lines are indented.  An unfinished control string in the message hides the end of the line as well. -/
def eventText (event : Event) : String :=
  let level := String.ofList (event.level.name.toList.rightpad 5 ' ')
  Text.stripControls s!"[{level} {event.topic}] {Text.indentLines 4 event.message}\n"

/-- What a level shows of a log. -/
def logText (level : Level) (log : List Event) : String :=
  String.join ((level.select log).map eventText)

def failed (a : Arguments) (log : List Event) (failure : Failure) : Report where
  status := 1
  stderr := logText a.level log ++ failure.message a.input ++ "\n"

def succeeded (a : Arguments) (log : List Event) (p : Program) : Report where
  status := 0
  stdout := (if a.listing then p.listing else "") ++ (if a.stats then p.stats.report else "")
  stderr := logText a.level log

def decodeText (content : List UInt8) : Except FileFault String :=
  match String.fromUTF8? ⟨content.toArray⟩ with
  | some text => .ok text
  | none => .error .notUtf8

section

variable {m : Type → Type} [Monad m]

def save (files : FileAccess m) (a : Arguments) (log : List Event) (p : Program) : m Report := do
  match ← files.write a.output p.image with
  | .error fault => return failed a log (.file a.output fault)
  | .ok () => return succeeded a (log ++ [.wrote a.output p.image.length p.entryAddress]) p

def compileFile (files : FileAccess m) (a : Arguments) : m Report := do
  match (← files.read a.input).bind decodeText with
  | .error fault => return failed a [] (.file a.input fault)
  | .ok source =>
    let attempt := compileLogged source a.options
    let log := .compiling a.input :: attempt.log
    match attempt.result with
    | .error error => return failed a log (.source error)
    | .ok p => save files a log p

def versionText : String := "fifthc 0.1.0\n"

def helpText : String :=
  "Compile a Fifth source file into a static x86-64 Linux executable\n\n" ++
  "Usage: fifthc [OPTIONS] <FILE>\n\n" ++
  "Arguments:\n  <FILE>  Input source file\n\n" ++
  "Options:\n" ++
  "  -o, --output <OUTPUT>     Output executable (default: input without extension)\n" ++
  "      --best-effort         Report unknown words as warnings instead of failing\n" ++
  "      --forward-refs        Allow calls to words defined later in the file\n" ++
  "      --stack-size <BYTES>  Bytes reserved for the data stack [default: 65536]\n" ++
  "      --code-base <ADDR>    Load address of the code segment [default: 4194304]\n" ++
  "      --data-base <ADDR>    Load address of the data segment [default: 6291456]\n" ++
  "      --disasm              Print a disassembly of the generated code\n" ++
  "      --stats               Print compilation statistics\n" ++
  "  -v, --verbose...          Increase log verbosity (-v info, -vv debug, -vvv trace)\n" ++
  "  -h, --help                Print help\n" ++
  "  -V, --version             Print version\n"

/-- A run with the given arguments. -/
def execute (files : FileAccess m) (arguments : List String) : m Report :=
  match Request.parse arguments with
  | .error fault => return { status := 2, stderr := s!"error: {fault.text}\n" }
  | .ok .version => return { status := 0, stdout := versionText }
  | .ok .help => return { status := 0, stdout := helpText }
  | .ok (.compile a) => compileFile files a

end

/-- A run over a file tree: what it says and the tree afterwards. -/
def run (arguments : List String) (tree : FileTree) : Report × FileTree :=
  (execute FileTree.access arguments).run tree

end Command

end ForthElf
