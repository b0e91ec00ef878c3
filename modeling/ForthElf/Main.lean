import ForthElf.Command.Run

/-!
# The executable

Runs the command line over the files of the system.
-/

namespace ForthElf

/-- The fault behind an error of the system. -/
def FileFault.ofSystem : IO.Error → FileFault
  | .noFileOrDirectory _ _ _ => .notFound
  | .inappropriateType _ 20 _ => .notADirectory
  | .inappropriateType _ 21 _ => .isADirectory
  | .inappropriateType (some _) _ _ => .isADirectory
  | .invalidArgument _ 36 _ => .nameTooLong
  | error => .other (toString error)

def readSystemFile (path : String) : IO (Except FileFault (List UInt8)) := do
  try
    let content ← IO.FS.readBinFile path
    return .ok content.toList
  catch error => return .error (.ofSystem error)

def writeSystemFile (path : String) (content : List UInt8) : IO (Except FileFault Unit) := do
  try
    IO.FS.writeBinFile path ⟨content.toArray⟩
    let all : IO.AccessRight := { read := true, write := true, execution := true }
    let others : IO.AccessRight := { read := true, execution := true }
    IO.setAccessRights path { user := all, group := others, other := others }
    return .ok ()
  catch error => return .error (.ofSystem error)

def systemFiles : FileAccess IO where
  read := readSystemFile
  write := writeSystemFile

end ForthElf

def main (arguments : List String) : IO UInt32 := do
  let report ← ForthElf.Command.execute ForthElf.systemFiles arguments
  IO.eprint report.stderr
  IO.print report.stdout
  return UInt32.ofNat report.status
