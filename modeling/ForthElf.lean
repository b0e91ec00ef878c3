import ForthElf.Code.Buffer
import ForthElf.Code.Emitter
import ForthElf.Command.Arguments
import ForthElf.Command.FileTree
import ForthElf.Command.Path
import ForthElf.Command.Run
import ForthElf.Compiler.Control
import ForthElf.Compiler.ControlStack
import ForthElf.Compiler.Definition
import ForthElf.Compiler.Dictionary
import ForthElf.Compiler.Dispatch
import ForthElf.Compiler.Event
import ForthElf.Compiler.ForwardCalls
import ForthElf.Compiler.NameTable
import ForthElf.Compiler.State
import ForthElf.Compiler.Statistics
import ForthElf.Error
import ForthElf.Image.Layout
import ForthElf.Image.Options
import ForthElf.Machine.Bytes
import ForthElf.Machine.Decode
import ForthElf.Machine.Encode
import ForthElf.Machine.Instruction
import ForthElf.Machine.Listing
import ForthElf.Machine.Register
import ForthElf.Machine.State
import ForthElf.Machine.Step
import ForthElf.Main
import ForthElf.Program
import ForthElf.Proofs.Decoding
import ForthElf.Proofs.Emission
import ForthElf.Proofs.Items
import ForthElf.Proofs.Links
import ForthElf.Proofs.Steps
import ForthElf.Source.Lexer
import ForthElf.Source.Literal
import ForthElf.Source.Position
import ForthElf.Source.Token
import ForthElf.Text.Blank
import ForthElf.Text.Case
import ForthElf.Text.ControlSequence
import ForthElf.Text.Digits
import ForthElf.Text.Lines
import ForthElf.Word.Effect
import ForthElf.Word.Primitive
import ForthElf.Word.Recipe
import ForthElf.Word.Routine
import ForthElf.Proofs.Compilation
import ForthElf.Proofs.Nesting
import ForthElf.Proofs.Assembly
import ForthElf.Proofs.Placement
import ForthElf.Proofs.Names
import ForthElf.Proofs.Resolution
import ForthElf.Proofs.Targets
import ForthElf.Proofs.Bodies
import ForthElf.Proofs.Arithmetic
import ForthElf.Proofs.Cells
import ForthElf.Proofs.Constructs
import ForthElf.Proofs.Edits
import ForthElf.Proofs.Encoding
import ForthElf.Proofs.Progress
import ForthElf.Proofs.Regularity
import ForthElf.Proofs.Atomicity
import ForthElf.Proofs.Fixups
import ForthElf.Proofs.Grammar
import ForthElf.Proofs.Recognition
import ForthElf.Proofs.Positions
import ForthElf.Proofs.Simulation
import ForthElf.Proofs.Awaiting
import ForthElf.Proofs.Announcement
import ForthElf.Proofs.Executable
import ForthElf.Proofs.ReturnStack
import ForthElf.Proofs.Actions
import ForthElf.Proofs.Merging
import ForthElf.Proofs.Matching
import ForthElf.Proofs.Spelling
import ForthElf.Proofs.Pieces
import ForthElf.Proofs.Deletion
import ForthElf.Proofs.DeepReturns
import ForthElf.Proofs.Lexing
import ForthElf.Proofs.NumberOutput
import ForthElf.Proofs.Representation
import ForthElf.Proofs.WordEffects
import ForthElf.Proofs.LoopBoundary
import ForthElf.Proofs.InputFile
import ForthElf.Proofs.Labels
import ForthElf.Proofs.Literals
import ForthElf.Proofs.Figures
import ForthElf.Proofs.Rows
import ForthElf.Proofs.Coverage
