import SchemaGuard.Schema.Definition

/-!
What a reference means where it stands: the parameters bound around it, and the definition that a
name or an applied generic name stands for.
-/

set_option autoImplicit false
set_option relaxedAutoImplicit false

namespace SchemaGuard

/-- The definition whose body a reference stands in, if any, and the parameters bound there. -/
structure Scope where
  owner : Option String
  params : List String
  deriving DecidableEq, Repr

namespace Scope

/-- No definition around, nothing bound. -/
def empty : Scope := ⟨none, []⟩

/-- The body of a definition. -/
def of (d : Definition) : Scope := ⟨some d.name, d.params⟩

def index? (s : Scope) (param : String) : Option Nat := s.params.idxOf? param

def isIdentity (s : Scope) (args : List TypeRef) : Bool := args == s.params.map TypeRef.parameter

end Scope

/-- A generic definition applied at a use site. -/
structure Instantiation where
  definition : Definition
  site : TypeRef
  concrete : Bool
  /-- The definition around the site, applied to its own parameters. -/
  recursive : Bool
  deriving DecidableEq, Repr

namespace Schema

/-- The definition of a name, if it has no parameters. -/
def monomorphic? (s : Schema) (name : String) : Option Definition :=
  (s.find? name).filter fun d => !d.isGeneric

/-- The definition of a name, if it has as many parameters as there are arguments. -/
def generic? (s : Schema) (name : String) (args : List TypeRef) : Option Definition :=
  (s.find? name).filter fun d => d.params.length == args.length

/-- What applying `name` to `args` in a scope comes to. -/
def instantiation? (s : Schema) (scope : Scope) (name : String) (args : List TypeRef) :
    Option Instantiation :=
  (s.generic? name args).map fun d =>
    { definition := d
      site := .generic name args
      concrete := !TypeRef.anyMentionsParameter args
      recursive := scope.owner == some name && scope.isIdentity args }

end Schema

end SchemaGuard
