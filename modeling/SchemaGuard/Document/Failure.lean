import SchemaGuard.Json.Fault
import SchemaGuard.Json.Printer
import SchemaGuard.Text.Shown

/-!
Why a document cannot be read: the cause, the path to the value it was found at, and the byte offset
it is reported at, with the wording of each.
-/

set_option autoImplicit false
set_option relaxedAutoImplicit false

namespace SchemaGuard

/-- A step of the path to a value; `unread` stands for a key that could not be read. -/
inductive Segment where
  | key (name : String)
  | index (i : Nat)
  | unread
  deriving DecidableEq, Repr

namespace Segment

private def textFrom : List Segment → Bool → String
  | [], _ => ""
  | .index i :: rest, _ => "[" ++ toString i ++ "]" ++ textFrom rest false
  | .key name :: rest, first => (if first then "" else ".") ++ name ++ textFrom rest false
  | .unread :: rest, first => (if first then "" else ".") ++ "?" ++ textFrom rest false

/-- The text of a path; the empty path is a point. -/
def pathText (path : List Segment) : String :=
  match path with
  | [] => "."
  | path => textFrom path true

end Segment

/-- What stands where something else was expected. -/
inductive Found where
  | null
  | bool (b : Bool)
  | number (n : Number)
  | string (s : String)
  | sequence
  | map
  /-- A variant's name without the content that the variant carries. -/
  | bareVariant
  deriving DecidableEq, Repr

def Found.text : Found → String
  | .null => "null"
  | .bool b => "boolean `" ++ toString b ++ "`"
  | .number (.integer i) => "integer `" ++ toString i ++ "`"
  | .number (.binary x) => "floating point `" ++ x.text ++ "`"
  | .string s => "string " ++ Text.shown s
  | .sequence => "sequence"
  | .map => "map"
  | .bareVariant => "unit variant"

inductive Cause where
  | fault (kind : FaultKind)
  | invalidType (found : Found) (expected : String)
  | notSingleKey
  | invalidLength (length : Nat) (expected : String)
  | missingField (name : String)
  | duplicateField (name : String)
  | unknownVariant (name : String) (known : List String)
  deriving DecidableEq, Repr

namespace Cause

def choices (known : List String) : String :=
  let quoted := known.map fun name => "`" ++ name ++ "`"
  match quoted with
  | [] => "there are no variants"
  | [a] => "expected " ++ a
  | [a, b] => "expected " ++ a ++ " or " ++ b
  | all => "expected one of " ++ ", ".intercalate all

def text : Cause → String
  | .fault kind => kind.text
  | .invalidType found expected => "invalid type: " ++ found.text ++ ", expected " ++ expected
  | .notSingleKey => "invalid value: map, expected map with a single key"
  | .invalidLength length expected =>
    "invalid length " ++ toString length ++ ", expected " ++ expected
  | .missingField name => "missing field `" ++ name ++ "`"
  | .duplicateField name => "duplicate field `" ++ name ++ "`"
  | .unknownVariant name known => "unknown variant `" ++ name ++ "`, " ++ choices known

end Cause

/-- A cause with the path to it and, once it is known, the offset it is reported at. -/
structure Failure where
  path : List Segment
  cause : Cause
  offset : Option Nat
  deriving DecidableEq, Repr

namespace Failure

def ofFault (fault : Fault) : Failure := ⟨[], .fault fault.kind, some fault.offset⟩

def under (segment : Segment) (f : Failure) : Failure := { f with path := segment :: f.path }

def locate (offset : Nat) (f : Failure) : Failure :=
  { f with offset := some (f.offset.getD offset) }

def causeText (f : Failure) (document : String) : String :=
  match f.offset with
  | none => f.cause.text
  | some offset =>
    let p := Position.ofOffset document offset
    f.cause.text ++ " at line " ++ toString p.line ++ " column " ++ toString p.column

end Failure

/-- A failure to read a document, told with the name of the document. -/
structure ParseError where
  origin : String
  path : List Segment
  text : String
  deriving DecidableEq, Repr

namespace ParseError

def message (e : ParseError) : String :=
  e.origin ++ ": at JSON path " ++ Segment.pathText e.path ++ " → " ++ e.text

end ParseError

end SchemaGuard
