import SchemaGuard.FileSystem.Path

/-!
A working directory as a value: the bytes of its files, the folders in it and what the disk below it
refuses. Paths are followed from its top; nothing is known of what lies outside of it, so a path
that leaves it leads to an empty folder. `read` and `save` reach files by path, `makeFolders` makes
folders, and each has the errors of following the path. Work that fails leaves what was done before.
-/

set_option autoImplicit false
set_option relaxedAutoImplicit false

namespace SchemaGuard

/-- Names that lead down from the top of a directory. -/
abbrev Location := List String

def Location.precedes : Location → Location → Bool
  | [], _ => true
  | _ :: _, [] => false
  | a :: as, b :: bs => if a = b then Location.precedes as bs else decide (a < b)

/-- Why a path cannot be followed, read or written. -/
inductive FileError where
  | notFound
  | alreadyThere
  | notFolder
  | isFolder
  | nameTooLong
  | zeroByte
  | notText
  | other (text : String)
  deriving DecidableEq, Repr

def FileError.text : FileError → String
  | .notFound => "No such file or directory (os error 2)"
  | .alreadyThere => "File exists (os error 17)"
  | .notFolder => "Not a directory (os error 20)"
  | .isFolder => "Is a directory (os error 21)"
  | .nameTooLong => "File name too long (os error 36)"
  | .zeroByte => "file name contained an unexpected NUL byte"
  | .notText => "stream did not contain valid UTF-8"
  | .other text => text

/-- What stands at a location. -/
inductive Entry where
  | file
  | folder
  deriving DecidableEq, Repr

/-- What a disk refuses, location by location: to read a file, to make a folder or open a file to be
written, and to take more than some bytes of a file. -/
structure Disk where
  unreadable : Location → Option FileError := fun _ => none
  closed : Location → Option FileError := fun _ => none
  limit : Location → Option (Nat × FileError) := fun _ => none

structure Directory where
  contents : List (Location × ByteArray)
  folders : List Location
  disk : Disk := {}

/-- What work on a directory leaves of it, and how the work ended. -/
structure Work (ε : Type) where
  left : Directory
  ending : Except ε Unit

/-- What a path leads to. -/
inductive Place where
  | inside (loc : Location)
  | outside
  deriving DecidableEq, Repr

namespace Directory

def ofFiles (files : List (String × String)) : Directory :=
  { contents := files.map fun file => (Path.names file.1, file.2.toUTF8), folders := [] }

def bytes? (d : Directory) (loc : Location) : Option ByteArray := d.contents.lookup loc

/-- The text of the file at a location, if it holds text. -/
def file? (d : Directory) (loc : Location) : Option String :=
  (d.bytes? loc).bind String.fromUTF8?

def files (d : Directory) : List (Location × String) :=
  d.contents.filterMap fun file => (String.fromUTF8? file.2).map fun text => (file.1, text)

/-- Folders are the top, those that were made, and whatever holds a file. -/
def find? (d : Directory) (loc : Location) : Option Entry :=
  if (d.bytes? loc).isSome then some .file
  else if loc.isEmpty || d.folders.any loc.isPrefixOf ||
    d.contents.any fun file => loc.isPrefixOf file.1 then some .folder
  else none

def locations (d : Directory) : List Location := d.contents.map Prod.fst ++ d.folders

def levels (loc below : Location) : List Location :=
  if loc.isPrefixOf below then
    let rest := below.drop loc.length
    (List.range rest.length).map fun n => rest.take (n + 1)
  else []

/-- All that is below a location, as names that lead from it, in the order of `precedes`. -/
def below (d : Directory) (loc : Location) : List Location :=
  (d.locations.flatMap (levels loc)).eraseDups.mergeSort Location.precedes

def nameLimit : Nat := 255

def pathLimit : Nat := 4096

def isFolder (d : Directory) : Place → Bool
  | .inside loc => d.find? loc == some .folder
  | .outside => true

/-- Follows one name, which has to stand in a folder. -/
def step (d : Directory) (here : Place) (name : String) : Except FileError Place :=
  if !d.isFolder here then .error .notFolder
  else if Path.stays name then .ok here
  else
    match here with
    | .outside => if name = ".." then .ok .outside else .error .notFound
    | .inside loc =>
      if name = ".." then .ok (if loc.isEmpty then .outside else .inside loc.dropLast)
      else if name.utf8ByteSize > nameLimit then .error .nameTooLong
      else if (d.find? (loc ++ [name])).isSome then .ok (.inside (loc ++ [name]))
      else .error .notFound

/-- Where a path starts and the names to follow, if it is a path at all. -/
def route (path : String) : Except FileError (Place × List String) :=
  if path.toList.contains '\x00' then .error .zeroByte
  else if path.isEmpty then .error .notFound
  else if path.utf8ByteSize ≥ pathLimit then .error .nameTooLong
  else if Path.isRooted path then .ok (.outside, (Path.names path).drop 1)
  else .ok (.inside [], Path.names path)

def locate (d : Directory) (path : String) : Except FileError Place := do
  let (start, names) ← route path
  names.foldlM d.step start

def isFolderAt (d : Directory) (path : String) : Bool :=
  match d.locate path with
  | .ok place => d.isFolder place
  | .error _ => false

def belowPath (d : Directory) (path : String) : List Location :=
  match d.locate path with
  | .ok (.inside loc) => d.below loc
  | _ => []

def read (d : Directory) (path : String) : Except FileError String := do
  match ← d.locate path with
  | .outside => .error .isFolder
  | .inside loc =>
    match d.disk.unreadable loc, d.find? loc, d.file? loc with
    | some e, _, _ => .error e
    | none, some .file, some text => return text
    | none, some .file, none => .error .notText
    | none, _, _ => .error .isFolder

/-- Where a path leads once a folder is made for its last name. -/
def vacancy (d : Directory) (path : String) : Except FileError Location :=
  match d.locate path with
  | .ok _ => .error .alreadyThere
  | .error .notFound => do
    let (start, names) ← route path
    match ← names.dropLast.foldlM d.step start, names.getLast? with
    | .inside loc, some name => return loc ++ [name]
    | _, _ => .error .notFound
  | .error e => .error e

def makeFolder (d : Directory) (path : String) : Work FileError :=
  match d.vacancy path with
  | .error e => ⟨d, .error e⟩
  | .ok loc =>
    match d.disk.closed loc with
    | some e => ⟨d, .error e⟩
    | none => ⟨{ d with folders := loc :: d.folders }, .ok ()⟩

/-- Makes a folder, unless it is there. -/
def ensureFolder (d : Directory) (path : String) : Work FileError :=
  match d.makeFolder path with
  | ⟨d, .error e⟩ => if d.isFolderAt path then ⟨d, .ok ()⟩ else ⟨d, .error e⟩
  | made => made

/-- Makes a folder, after those above it where they are missing. The paths are the folder's and
those above it, the longest first. Folders that were made stay where a later one fails. -/
def makeFolders (d : Directory) : List String → Work FileError
  | [] => ⟨d, .ok ()⟩
  | path :: above =>
    if path.isEmpty then ⟨d, .ok ()⟩
    else
      match d.ensureFolder path with
      | ⟨d, .error .notFound⟩ =>
        match d.makeFolders above with
        | ⟨d, .ok ()⟩ => d.ensureFolder path
        | failed => failed
      | made => made

def put (d : Directory) (loc : Location) (bytes : ByteArray) : Directory :=
  { d with contents := (loc, bytes) :: d.contents.filter fun file => file.1 != loc }

/-- Where a path puts the file that it names. -/
def target (d : Directory) (path : String) : Except FileError Location := do
  let (start, names) ← route path
  match names.reverse.dropWhile (· == "") with
  | [] => .error .isFolder
  | name :: above =>
    if name = "." || name = ".." then do
      let _ ← d.locate path
      .error .isFolder
    else
      match ← above.reverse.foldlM d.step start with
      | .outside => .error .notFound
      | .inside loc =>
        if d.find? loc ≠ some .folder then .error .notFolder
        else if names.getLast? = some "" then .error .isFolder
        else if name.utf8ByteSize > nameLimit then .error .nameTooLong
        else if d.find? (loc ++ [name]) = some .folder then .error .isFolder
        else return loc ++ [name]

/-- Writes the file that a path names, in a folder that is there. The file is empty before its first
byte is written, and holds what was written when writing breaks off. -/
def save (d : Directory) (path text : String) : Work FileError :=
  match d.target path with
  | .error e => ⟨d, .error e⟩
  | .ok loc =>
    match d.disk.closed loc, d.disk.limit loc with
    | some e, _ => ⟨d, .error e⟩
    | none, some (n, e) =>
      if n < text.utf8ByteSize then ⟨d.put loc (text.toUTF8.extract 0 n), .error e⟩
      else ⟨d.put loc text.toUTF8, .ok ()⟩
    | none, none => ⟨d.put loc text.toUTF8, .ok ()⟩

end Directory

end SchemaGuard
