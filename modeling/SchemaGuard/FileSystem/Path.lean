/-!
Paths as they are written: names divided by separators. A path may hold empty names and points,
which lead nowhere, and two points, which lead up; it keeps its wording, which messages repeat.
-/

set_option autoImplicit false
set_option relaxedAutoImplicit false

namespace SchemaGuard.Path

def separator : Char := '/'

def split : List Char → List (List Char)
  | [] => [[]]
  | c :: cs =>
    if c = separator then [] :: split cs
    else
      match split cs with
      | [] => [[c]]
      | piece :: pieces => (c :: piece) :: pieces

def names (path : String) : List String := (split path.toList).map String.ofList

/-- The path of the names. -/
def ofNames (names : List String) : String := "/".intercalate names

/-- A name that leads from a folder to itself. -/
def stays (name : String) : Bool := name == "" || name == "."

def isRooted (path : String) : Bool := path.toList.head? == some separator

def join (path name : String) : String :=
  if path == "" || path.toList.getLast? == some separator then path ++ name
  else path ++ "/" ++ name

/-- The path is a point, which may be followed by names that lead nowhere. -/
def isHere (path : String) : Bool :=
  match names path with
  | "." :: rest => rest.all stays
  | _ => false

/-- Reversed names and all that is above them, less the names that lead nowhere. -/
def trails : List String → List (List String)
  | [] => [[]]
  | name :: above => if stays name then trails above else (name :: above) :: trails above

/-- The path without a tail that leads nowhere, and every path above it, the longest first. The
working directory, where relative paths start, is the empty path. -/
def upward (path : String) : List String :=
  match names path with
  | [] | [""] => []
  | first :: rest =>
    let paths := (trails rest.reverse).map fun trail => ofNames (first :: trail.reverse)
    if first == "" then paths.map fun path => if path == "" then "/" else path
    else paths ++ [""]

end SchemaGuard.Path
