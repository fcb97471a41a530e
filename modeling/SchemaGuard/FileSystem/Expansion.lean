import SchemaGuard.FileSystem.Directory
import SchemaGuard.FileSystem.Pattern

/-!
The paths in a directory that a pattern stands for, folder by folder with the names in each
ascending. A folder comes before what is in it.
-/

set_option autoImplicit false
set_option relaxedAutoImplicit false

namespace SchemaGuard.Directory

/-- The path of what is at a location below a folder. The folder that is the working directory is
not mentioned. -/
def pathBelow (path : String) (loc : Location) : String :=
  if Path.isHere path then Path.ofNames loc else Path.join path (Path.ofNames loc)

/-- The names for the folder itself and the one above it that a pattern stands for. It has to begin
with a point. -/
def dots : List Glob → List String
  | .char '.' :: globs =>
    ["..", "."].filter fun name => Glob.allMatch (.char '.' :: globs) name.toList
  | _ => []

/-- The paths that names lead to from the path of an entry; `folder` asks for folders only. -/
def expand (d : Directory) (folder : Bool) : List NamePattern → String → List String
  | [], path => if folder && !d.isFolderAt path then [] else [path]
  | .literal name :: rest, path =>
    let next := if Path.isHere path then name else Path.join path name
    let isThere :=
      if name = "." || name = ".." then d.isFolderAt path
      else match d.locate next with | .ok _ => true | .error _ => false
    if isThere then d.expand folder rest next else []
  | .wild globs :: rest, path =>
    if d.isFolderAt path then
      (dots globs).flatMap (fun name => d.expand folder rest (Path.join path name))
        ++ (d.belowPath path).flatMap fun loc =>
          match loc with
          | [name] =>
            if Glob.allMatch globs name.toList then d.expand folder rest (pathBelow path loc)
            else []
          | _ => []
    else []
  | [.anyDepth], path => ((d.belowPath path).map (pathBelow path)).filter d.isFolderAt
  | .anyDepth :: next :: rest, path =>
    (d.belowPath path).flatMap fun loc =>
      if loc.getLast?.any next.accepts then d.expand folder rest (pathBelow path loc) else []

/-- The paths that a pattern stands for. -/
def matching (d : Directory) (p : Pattern) : List String :=
  d.expand p.folder p.names (if p.rooted then "/" else ".")

end SchemaGuard.Directory
