import ForthElf.Command.Path

/-!
# Files

* `FileFault` — why a file cannot be read or written;
* `FileTree` — the files and directories below the root, and the working directory;
* `FileTree.read`, `FileTree.write` — what a path leads to, and the tree after writing there.

A path starts at the root or at the working directory.  There are no links, so that every place has one way to it.
-/

namespace ForthElf

/-- Why a file cannot be read or written. -/
inductive FileFault where
  | notFound
  | notADirectory
  | isADirectory
  /-- A name or the whole path is longer than the system allows. -/
  | nameTooLong
  | notUtf8
  /-- Any other reason, told by the system. -/
  | other (text : String)
deriving DecidableEq

def FileFault.text : FileFault → String
  | .notFound => "No such file or directory (os error 2)"
  | .notADirectory => "Not a directory (os error 20)"
  | .isADirectory => "Is a directory (os error 21)"
  | .nameTooLong => "File name too long (os error 36)"
  | .notUtf8 => "stream did not contain valid UTF-8"
  | .other text => text

inductive Node where
  | file (content : List UInt8) (executable : Bool)
  | directory
deriving DecidableEq

/-- A place: the names on the way to it from the root, the last one first. -/
abbrev Place := List String

/-- Files and directories below the root. -/
structure FileTree where
  nodes : List (Place × Node) := []
  /-- The place from which a path that is not absolute starts. -/
  workingDirectory : Place := []
deriving DecidableEq

namespace FileTree

/-- What stands at a place; the root is always there. -/
def get? (t : FileTree) (place : Place) : Option Node :=
  if place = [] then some .directory else t.nodes.lookup place

def put (t : FileTree) (place : Place) (node : Node) : FileTree :=
  if (t.nodes.lookup place).isSome then
    { t with nodes := t.nodes.map fun entry => if entry.1 = place then (place, node) else entry }
  else { t with nodes := t.nodes ++ [(place, node)] }

/-- Makes the directories on the way to a place. -/
def putParents (t : FileTree) : Place → FileTree
  | [] => t
  | _ :: parent =>
    let t := t.putParents parent
    if (t.get? parent).isSome then t else t.put parent .directory

/-- Puts a node at a place with the directories on the way to it. -/
def putWithParents (t : FileTree) (place : Place) (node : Node) : FileTree :=
  (t.putParents place).put place node

/-- The place that a path without dots names. -/
def placeOf (path : String) : Place :=
  ((Path.parts path).filter fun part => !Path.isVoid part).reverse

/-! ### Following a path -/

def maxName : Nat := 255

def maxPath : Nat := 4095

/-- The next name on a walk, from a directory.  The root is its own parent. -/
def enter (place : Place) (part : String) : Except FileFault Place :=
  if maxName < part.utf8ByteSize then .error .nameTooLong
  else if part = ".." then .ok place.tail
  else .ok (part :: place)

/-- Walks along the parts of a path, to a place that may be vacant.  Every part but the last must lead to a
directory. -/
def walk (t : FileTree) (place : Place) : List String → Except FileFault Place
  | [] => .ok place
  | part :: parts =>
    match t.get? place with
    | none => .error .notFound
    | some (.file _ _) => .error .notADirectory
    | some .directory =>
      if Path.isVoid part then walk t place parts
      else
        match enter place part with
        | .ok next => walk t next parts
        | .error fault => .error fault

/-- The place at which a path starts. -/
def start (t : FileTree) (path : String) : Place :=
  if Path.isAbsolute path then [] else t.workingDirectory

def follow (t : FileTree) (path : String) (parts : List String) : Except FileFault Place :=
  if maxPath < path.utf8ByteSize then .error .nameTooLong else t.walk (t.start path) parts

/-! ### Reading and writing -/

def read (t : FileTree) (path : String) : Except FileFault (List UInt8) :=
  match t.follow path (Path.parts path) with
  | .error fault => .error fault
  | .ok place =>
    match t.get? place with
    | none => .error .notFound
    | some .directory => .error .isADirectory
    | some (.file content _) => .ok content

/-- The parts of a path that leads to a file to be written.  A trailing slash asks for a directory, whatever the last
name is, so the directory of that name stands for it. -/
def targetParts (path : String) : List String :=
  let named := ((Path.parts path).reverse.dropWhile (· == "")).reverse
  if Path.endsInSlash path then named.dropLast ++ ["."] else named

/-- The place at which writing to a path puts a file. -/
def writePlace (t : FileTree) (path : String) : Except FileFault Place :=
  match t.follow path (targetParts path) with
  | .error fault => .error fault
  | .ok place =>
    if t.get? place = some .directory then .error .isADirectory else .ok place

/-- The tree after an executable file was written to a path. -/
def write (t : FileTree) (path : String) (content : List UInt8) : Except FileFault FileTree :=
  match t.writePlace path with
  | .error fault => .error fault
  | .ok place => .ok (t.put place (.file content true))

end FileTree

end ForthElf
