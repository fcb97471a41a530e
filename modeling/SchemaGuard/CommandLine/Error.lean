import SchemaGuard.Document.Failure
import SchemaGuard.FileSystem.Directory
import SchemaGuard.FileSystem.Pattern
import SchemaGuard.Options
import SchemaGuard.Resolution.Error

/-!
The errors of running a command, with what is told of each.
-/

set_option autoImplicit false
set_option relaxedAutoImplicit false

namespace SchemaGuard

/-- Why a run fails. -/
inductive RunError where
  | options (e : OptionsError)
  | badPattern (pattern : String) (e : PatternError)
  | nothingMatches (pattern : String)
  | unreadableSchema (path : String) (e : FileError)
  | badDocument (e : ParseError)
  | badSchema (errors : List SchemaError)
  | emptyType
  | unusableType (e : UseError)
  | unreadableValue (path : String) (e : FileError)
  | badValue (path text : String)
  | cannotMakeFolder (path : String) (e : FileError)
  | cannotWrite (path : String) (e : FileError)
  deriving DecidableEq, Repr

def RunError.messages : RunError → List String
  | .options e => [e.message]
  | .badPattern pattern e => ["bad glob pattern " ++ pattern, e.message]
  | .nothingMatches pattern => ["glob pattern matched no files: " ++ pattern]
  | .unreadableSchema path e => ["failed to read " ++ path ++ ": " ++ e.text, e.text]
  | .badDocument e => [e.message]
  | .badSchema errors => [SchemaError.summary errors]
  | .emptyType => ["empty --type"]
  | .unusableType e => [e.message]
  | .unreadableValue path e => ["failed to read " ++ path, e.text]
  | .badValue path text => ["failed to parse JSON value file " ++ path, text]
  | .cannotMakeFolder path e => ["creating " ++ path, e.text]
  | .cannotWrite path e => ["writing " ++ path, e.text]

end SchemaGuard
