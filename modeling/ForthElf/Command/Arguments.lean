import ForthElf.Command.Path
import ForthElf.Compiler.Event
import ForthElf.Image.Options
import ForthElf.Text.Digits

/-!
# Command line arguments

* `Arguments` — what a run is asked to do;
* `Request.parse` — the request that a list of arguments makes, read from left to right.

An option stands alone (`--stats`), with its value attached (`--output=x`, `-ox`) or in front of it (`-o x`).  Short
options may be joined (`-vo x`), and `--` ends the options.
-/

namespace ForthElf

open Text

inductive UsageFault where
  | unknownOption (option : String)
  | repeatedOption (option : String)
  | unexpectedValue (option : String)
  | missingValue (option : String)
  | invalidValue (option value : String)
  | extraFile (path : String)
  | missingFile
deriving DecidableEq

def UsageFault.text : UsageFault → String
  | .unknownOption option => s!"unexpected argument '{option}' found"
  | .repeatedOption option => s!"the argument '{option}' cannot be used multiple times"
  | .unexpectedValue option => s!"unexpected value for '{option}' found; no more were expected"
  | .missingValue option => s!"a value is required for '{option}' but none was supplied"
  | .invalidValue option value => s!"invalid value '{value}' for '{option}'"
  | .extraFile path => s!"unexpected argument '{path}' found"
  | .missingFile => "the following required arguments were not provided: <FILE>"

/-- What a compilation is asked to do. -/
structure Arguments where
  input : String
  output : String
  options : Options
  /-- Whether to print the listing. -/
  listing : Bool
  /-- Whether to print the statistics. -/
  stats : Bool
  /-- How much of the log to print. -/
  level : Level
deriving DecidableEq

inductive Request where
  | compile (arguments : Arguments)
  | version
  | help
deriving DecidableEq

namespace Request

/-- The options that stand alone. -/
inductive Flag where
  | bestEffort
  | forwardRefs
  | listing
  | stats
  | verbose
  | version
  | help
deriving DecidableEq

/-- The options that take a value. -/
inductive Setting where
  | output
  | stackSize
  | codeBase
  | dataBase
deriving DecidableEq

def Setting.spelling : Setting → String
  | .output => "--output"
  | .stackSize => "--stack-size"
  | .codeBase => "--code-base"
  | .dataBase => "--data-base"

def long? : String → Option (Flag ⊕ Setting)
  | "best-effort" => some (.inl .bestEffort)
  | "forward-refs" => some (.inl .forwardRefs)
  | "disasm" => some (.inl .listing)
  | "stats" => some (.inl .stats)
  | "verbose" => some (.inl .verbose)
  | "version" => some (.inl .version)
  | "help" => some (.inl .help)
  | "output" => some (.inr .output)
  | "stack-size" => some (.inr .stackSize)
  | "code-base" => some (.inr .codeBase)
  | "data-base" => some (.inr .dataBase)
  | _ => none

def short? : Char → Option (Flag ⊕ Setting)
  | 'o' => some (.inr .output)
  | 'v' => some (.inl .verbose)
  | 'V' => some (.inl .version)
  | 'h' => some (.inl .help)
  | _ => none

/-- What the arguments so far have said. -/
structure Draft where
  input : Option String := none
  output : Option String := none
  stackSize : Option UInt64 := none
  codeBase : Option UInt64 := none
  dataBase : Option UInt64 := none
  bestEffort : Bool := false
  forwardRefs : Bool := false
  listing : Bool := false
  stats : Bool := false
  verbosity : Nat := 0
deriving DecidableEq

/-- How reading goes on after an argument: with more of them, or at once with a request. -/
inductive Progress where
  /-- Goes on; the next argument is the value of `pending`, if there is one. -/
  | more (draft : Draft) (pending : Option Setting)
  | done (request : Request)

/-! ### Values -/

/-- A 64-bit number in `radix`; a plus sign may stand in front. -/
def readUnsigned? (radix : Nat) (text : List Char) : Option UInt64 :=
  let digits := match text with
    | '+' :: digits => digits
    | digits => digits
  match readDigits? radix digits with
  | some value => if value < UInt64.size then some (UInt64.ofNat value) else none
  | none => none

/-- An address: hexadecimal behind `0x` or `0X`, else decimal. -/
def readAddress? : List Char → Option UInt64
  | '0' :: 'x' :: digits => readUnsigned? 16 digits
  | '0' :: 'X' :: digits => readUnsigned? 16 digits
  | digits => readUnsigned? 10 digits

/-- Fills a place of the draft that must still be empty. -/
def fillOnce {α : Type} (option text : String) (old value : Option α) :
    Except UsageFault (Option α) :=
  if old.isSome then .error (.repeatedOption option)
  else if value.isNone then .error (.invalidValue option text)
  else .ok value

def readPath? (text : String) : Option String :=
  if text = "" then none else some text

def assign (draft : Draft) (setting : Setting) (text : String) : Except UsageFault Draft := do
  match setting with
  | .output => return { draft with
      output := ← fillOnce setting.spelling text draft.output (readPath? text) }
  | .stackSize => return { draft with
      stackSize := ← fillOnce setting.spelling text draft.stackSize (readUnsigned? 10 text.toList) }
  | .codeBase => return { draft with
      codeBase := ← fillOnce setting.spelling text draft.codeBase (readAddress? text.toList) }
  | .dataBase => return { draft with
      dataBase := ← fillOnce setting.spelling text draft.dataBase (readAddress? text.toList) }

def assignInput (draft : Draft) (text : String) : Except UsageFault Draft :=
  if draft.input.isSome then .error (.extraFile text)
  else if text = "" then .error (.invalidValue "FILE" text)
  else .ok { draft with input := some text }

/-- Sets a flag that must not be set yet. -/
def raise (option : String) (old : Bool) (draft : Draft) : Except UsageFault Progress :=
  if old then .error (.repeatedOption option) else .ok (.more draft none)

def obey (draft : Draft) (option : String) : Flag → Except UsageFault Progress
  | .bestEffort => raise option draft.bestEffort { draft with bestEffort := true }
  | .forwardRefs => raise option draft.forwardRefs { draft with forwardRefs := true }
  | .listing => raise option draft.listing { draft with listing := true }
  | .stats => raise option draft.stats { draft with stats := true }
  | .verbose => .ok (.more { draft with verbosity := draft.verbosity + 1 } none)
  | .version => .ok (.done .version)
  | .help => .ok (.done .help)

/-! ### Options -/

/-- Splits a long option at its first equals sign: the name, and the value if there is a sign. -/
def splitEquals : List Char → List Char × Option (List Char)
  | [] => ([], none)
  | '=' :: value => ([], some value)
  | c :: cs => (c :: (splitEquals cs).1, (splitEquals cs).2)

/-- Reads a long option; `text` is what stands behind the two dashes. -/
def readLong (draft : Draft) (text : List Char) : Except UsageFault Progress :=
  let (nameChars, value?) := splitEquals text
  let name := String.ofList nameChars
  let option := "--" ++ name
  match long? name, value? with
  | none, _ => .error (.unknownOption option)
  | some (.inl _), some _ => .error (.unexpectedValue option)
  | some (.inl flag), none => obey draft option flag
  | some (.inr setting), none => .ok (.more draft (some setting))
  | some (.inr setting), some value =>
    (assign draft setting (String.ofList value)).map fun draft => .more draft none

/-- The value attached to a short option; an equals sign in front is not part of it. -/
def attached : List Char → String
  | '=' :: value => String.ofList value
  | value => String.ofList value

/-- Reads joined short options. -/
def readShort (draft : Draft) : List Char → Except UsageFault Progress
  | [] => .ok (.more draft none)
  | c :: cs =>
    let option := String.ofList ['-', c]
    match short? c with
    | none => .error (.unknownOption option)
    | some (.inr setting) =>
      if cs.isEmpty then .ok (.more draft (some setting))
      else (assign draft setting (attached cs)).map fun draft => .more draft none
    | some (.inl flag) =>
      match obey draft option flag with
      | .ok (.more draft _) => readShort draft cs
      | other => other

/-- Whether an argument looks like an option; a single dash does not. -/
def looksLikeOption (argument : String) : Bool :=
  match argument.toList with
  | '-' :: _ :: _ => true
  | _ => false

/-- Reads an argument that is no value and not `--`. -/
def readArgument (draft : Draft) (argument : String) : Except UsageFault Progress :=
  match argument.toList with
  | '-' :: '-' :: text => readLong draft text
  | '-' :: c :: cs => readShort draft (c :: cs)
  | _ => (assignInput draft argument).map fun draft => .more draft none

/-! ### Argument lists -/

/-- The level for a number of `-v`. -/
def levelOf : Nat → Level
  | 0 => .warn
  | 1 => .info
  | 2 => .debug
  | _ => .trace

/-- The request of a finished draft.  The output goes beside the input, without its extension. -/
def ofDraft (draft : Draft) : Except UsageFault Request :=
  match draft.input with
  | none => .error .missingFile
  | some input =>
    let default : Options := {}
    .ok (.compile {
      input
      output := draft.output.getD (Path.withoutExtension input)
      options := {
        codeBase := draft.codeBase.getD default.codeBase
        dataBase := draft.dataBase.getD default.dataBase
        stackSize := draft.stackSize.getD default.stackSize
        bestEffort := draft.bestEffort
        forwardRefs := draft.forwardRefs }
      listing := draft.listing
      stats := draft.stats
      level := levelOf draft.verbosity })

/-- Reads the arguments behind `--`, which are all files. -/
def readFiles (draft : Draft) : List String → Except UsageFault Request
  | [] => ofDraft draft
  | argument :: rest =>
    match assignInput draft argument with
    | .ok draft => readFiles draft rest
    | .error fault => .error fault

/-- Reads arguments; the first is the value of `pending`, if there is one. -/
def readAll (draft : Draft) (pending : Option Setting) : List String → Except UsageFault Request
  | [] =>
    match pending with
    | some setting => .error (.missingValue setting.spelling)
    | none => ofDraft draft
  | argument :: rest =>
    match pending with
    | some setting =>
      if looksLikeOption argument then .error (.missingValue setting.spelling)
      else
        match assign draft setting argument with
        | .ok draft => readAll draft none rest
        | .error fault => .error fault
    | none =>
      if argument = "--" then readFiles draft rest
      else
        match readArgument draft argument with
        | .ok (.more draft pending) => readAll draft pending rest
        | .ok (.done request) => .ok request
        | .error fault => .error fault

/-- The request of an argument list. -/
def parse (arguments : List String) : Except UsageFault Request :=
  readAll {} none arguments

end Request

end ForthElf
