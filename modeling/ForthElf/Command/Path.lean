/-!
# Paths

* `Path.parts` — the names between the slashes of a path;
* `Path.withoutExtension` — the path with the extension of its last name cut off.

A name like `.profile` has no extension, and the last dot of a name starts it: `a.b.f` becomes `a.b`.  The dot goes
with the extension unless this would turn the name into another one: `..f` becomes `..`, which names a directory and
has no extension to lose.
-/

namespace ForthElf.Path

/-- Splits at slashes; the part in front comes first. -/
def splitSlash : List Char → List (List Char)
  | [] => [[]]
  | c :: cs =>
    match splitSlash cs with
    | [] => [[c]]
    | part :: parts => if c = '/' then [] :: part :: parts else (c :: part) :: parts

def parts (path : String) : List String :=
  (splitSlash path.toList).map String.ofList

def isAbsolute (path : String) : Bool :=
  path.toList.head? == some '/'

def endsInSlash (path : String) : Bool :=
  path.toList.getLast? == some '/'

/-- Whether a part names nothing: between two slashes, or a single dot. -/
def isVoid (part : String) : Bool :=
  part == "" || part == "."

/-- The name in front of the last dot, unless that dot is absent or comes first. -/
def stem (name : String) : String :=
  let reversed := name.toList.reverse
  match reversed.dropWhile (· != '.') with
  | [] => name
  | _ :: front => if front.isEmpty then name else String.ofList front.reverse

/-- The name without its extension.  Once the letters of the extension are gone, a name that is `..` keeps its dots. -/
def base (name : String) : String :=
  if stem name = "." then ".." else stem name

/-- The path with the extension of its last name cut off.  A path without a last name is left as it is. -/
def withoutExtension (path : String) : String :=
  match (parts path).reverse.dropWhile isVoid with
  | [] => path
  | name :: front =>
    if name = ".." then path else "/".intercalate (front.reverse ++ [base name])

end ForthElf.Path
