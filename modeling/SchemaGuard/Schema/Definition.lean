import SchemaGuard.Schema.TypeRef

/-!
Schemas: structs, unions tagged by a string, enums of strings and aliases, in the order declared.
A schema may define a name twice; resolution reports it.
-/

set_option autoImplicit false
set_option relaxedAutoImplicit false

namespace SchemaGuard

def tagKey : String := "tag"

def payloadKey : String := "fields"

structure Field where
  name : String
  type : TypeRef
  required : Bool
  deriving DecidableEq, Repr

structure Struct where
  name : String
  params : List String
  fields : List Field
  deriving DecidableEq, Repr

structure Variant where
  tag : String
  fields : List Field
  deriving DecidableEq, Repr

structure Union where
  name : String
  variants : List Variant
  deriving DecidableEq, Repr

structure Enum where
  name : String
  members : List String
  deriving DecidableEq, Repr

structure Alias where
  name : String
  params : List String
  target : TypeRef
  deriving DecidableEq, Repr

def Union.variant? (u : Union) (tag : String) : Option Variant :=
  u.variants.find? fun v => v.tag == tag

inductive Definition where
  | struct (s : Struct)
  | union (u : Union)
  | enum (e : Enum)
  | alias (a : Alias)
  deriving DecidableEq, Repr

namespace Definition

def name : Definition → String
  | .struct s => s.name
  | .union u => u.name
  | .enum e => e.name
  | .alias a => a.name

/-- The parameters; unions and enums have none. -/
def params : Definition → List String
  | .struct s => s.params
  | .alias a => a.params
  | .union _ | .enum _ => []

def isGeneric (d : Definition) : Bool := !d.params.isEmpty

end Definition

structure Schema where
  types : List Definition
  deriving DecidableEq, Repr

namespace Schema

def empty : Schema := ⟨[]⟩

/-- Adds a definition at the end. -/
def push (s : Schema) (d : Definition) : Schema := ⟨s.types ++ [d]⟩

def append (s t : Schema) : Schema := ⟨s.types ++ t.types⟩

/-- The first definition of a name. -/
def find? (s : Schema) (name : String) : Option Definition :=
  s.types.find? fun d => d.name == name

end Schema

end SchemaGuard
