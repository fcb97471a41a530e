import SchemaGuard.Schema.Identifier
import SchemaGuard.Json.Value

/-!
What can be chosen about the emitted code, and which guard prefixes are sound: no prefix followed by
a type's name may spell a name that the emitted code binds or reads for itself.
-/

set_option autoImplicit false
set_option relaxedAutoImplicit false

namespace SchemaGuard

/-- How guards treat keys that the schema does not declare. -/
inductive ShapePolicy where
  | opened
  | closed
  deriving DecidableEq, Repr

namespace ShapePolicy

def all : List ShapePolicy := [.opened, .closed]

def name : ShapePolicy → String
  | .opened => "open"
  | .closed => "closed"

end ShapePolicy

structure Options where
  shape : ShapePolicy := .opened
  guardPrefix : String := "isa_"
  exported : Bool := true
  typesModule : Option String := none
  deriving DecidableEq, Repr

inductive OptionsError where
  | invalidPrefix (given : String)
  | shadowedPrefix (given clash : String)
  deriving DecidableEq, Repr

namespace OptionsError

def message : OptionsError → String
  | .invalidPrefix given => "guard prefix `" ++ given ++ "` is not a valid identifier prefix"
  | .shadowedPrefix given clash =>
    "guard prefix `" ++ given ++ "` can produce names that clash with the generated local `"
      ++ clash ++ "`"

end OptionsError

namespace Options

/-- Names that the emitted code binds or reads besides the guards themselves. -/
def locals : List String := ["obj", "guard", "fields", "k", "v", "b", "Object", "Array", "Number"]

def checkerPrefix : String := "check_"

def closed (o : Options) : Options := { o with shape := .closed }

def guardName (o : Options) (type : String) : String := o.guardPrefix ++ type

def factoryName (o : Options) (type : String) : String := "make_" ++ o.guardPrefix ++ type

def clash? (given : String) : Option String :=
  let spells (name : String) : Bool :=
    given.length < name.length && given.toList.isPrefixOf name.toList
  match locals.find? spells with
  | some name => some name
  | none =>
    if given.toList.isPrefixOf checkerPrefix.toList || checkerPrefix.toList.isPrefixOf given.toList
    then some checkerPrefix
    else none

def validate (o : Options) : Except OptionsError Unit :=
  if !Identifier.isUsable o.guardPrefix then .error (.invalidPrefix o.guardPrefix)
  else
    match clash? o.guardPrefix with
    | some clash => .error (.shadowedPrefix o.guardPrefix clash)
    | none => .ok ()

def toJson (o : Options) : Json :=
  .object [("shape", .string o.shape.name), ("guard_prefix", .string o.guardPrefix),
    ("export", .bool o.exported),
    ("types_module", match o.typesModule with | some m => .string m | none => .null)]

end Options

end SchemaGuard
