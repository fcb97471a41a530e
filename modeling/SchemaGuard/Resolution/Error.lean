/-!
The errors of resolution and of looking guards up, with their wording.
-/

set_option autoImplicit false
set_option relaxedAutoImplicit false

namespace SchemaGuard

/-- Where in a schema a reference stands. -/
structure Site where
  type : String
  variant : Option String := none
  field : Option String := none
  deriving DecidableEq, Repr

namespace Site

def atField (s : Site) (field : String) : Site := { s with field := some field }

def text (s : Site) : String :=
  "`" ++ s.type ++ (match s.variant with | some tag => "::" ++ tag | none => "")
    ++ (match s.field with | some field => "." ++ field | none => "") ++ "`"

end Site

/-- What an unusable name was to name. -/
inductive NameRole where
  | type
  | parameter
  deriving DecidableEq, Repr

def NameRole.text : NameRole → String
  | .type => "type"
  | .parameter => "parameter"

inductive SchemaError where
  | duplicateType (name : String)
  | unresolvedReference (site : Site) (target : String)
  | arityMismatch (site : Site) (target : String) (expected found : Nat)
  | unboundParameter (site : Site) (param : String)
  | invalidParameterUse (site : Site) (param : String)
  | duplicateTag (union tag : String)
  | duplicateField (owner : Site) (field : String)
  | duplicateMember (type member : String)
  | cyclicAlias (name : String)
  | duplicateParameter (type param : String)
  | invalidIdentifier (name : String) (role : NameRole)
  deriving DecidableEq, Repr

def SchemaError.message : SchemaError → String
  | .duplicateType name => "duplicate type `" ++ name ++ "`"
  | .unresolvedReference site target =>
    site.text ++ " refers to undefined type `" ++ target ++ "`"
  | .arityMismatch site target expected found =>
    site.text ++ ": `" ++ target ++ "` takes " ++ toString expected ++ " type argument(s), "
      ++ toString found ++ " supplied"
  | .unboundParameter site param =>
    site.text ++ " uses parameter `" ++ param ++ "` outside the generic type that declares it"
  | .invalidParameterUse site param =>
    site.text ++ " uses parameter `" ++ param
      ++ "` as a type; parameters have no runtime representation"
  | .duplicateTag union tag => "duplicate tag `" ++ tag ++ "` in union `" ++ union ++ "`"
  | .duplicateField owner field => "duplicate field `" ++ field ++ "` in " ++ owner.text
  | .duplicateMember type member => "duplicate member `" ++ member ++ "` in enum `" ++ type ++ "`"
  | .cyclicAlias name =>
    "alias `" ++ name
      ++ "` expands to itself without passing through a struct, union or container"
  | .duplicateParameter type param => "duplicate parameter `" ++ param ++ "` on `" ++ type ++ "`"
  | .invalidIdentifier name role =>
    "`" ++ name ++ "` is not a usable " ++ role.text ++ " name"

def SchemaError.summary (errors : List SchemaError) : String :=
  "schema has " ++ toString errors.length ++ " error(s)"
    ++ String.join (errors.map fun e => "\n  - " ++ e.message)

/-- Why a guard or factory cannot be had. -/
inductive UseError where
  | unknownType (name : String)
  | generic (name : String)
  | notGeneric (name : String)
  | checkerCount (name : String) (expected found : Nat)
  | schema (errors : List SchemaError)
  deriving DecidableEq, Repr

def UseError.message : UseError → String
  | .unknownType name => "no type named `" ++ name ++ "`"
  | .generic name => "`" ++ name ++ "` is generic; instantiate it through its factory"
  | .notGeneric name => "`" ++ name ++ "` is monomorphic and has no factory"
  | .checkerCount name expected found =>
    "`" ++ name ++ "` takes " ++ toString expected ++ " checker(s), " ++ toString found
      ++ " supplied"
  | .schema errors => SchemaError.summary errors

end SchemaGuard
