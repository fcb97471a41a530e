import SchemaGuard.Options

/-!
The commands: to emit an artifact of a schema, and to check values.
-/

set_option autoImplicit false
set_option relaxedAutoImplicit false

namespace SchemaGuard

/-- What can be emitted of a schema. -/
inductive Product where
  | declarations
  | guards
  | bundle
  deriving DecidableEq, Repr

/-- An order to emit a product of the schema in the files that the patterns stand for. -/
structure EmitOrder where
  product : Product
  schema : List String
  options : Options
  out : Option String
  deriving DecidableEq, Repr

/-- An order to check the values in files. -/
structure CheckOrder where
  schema : List String
  shape : ShapePolicy
  type : String
  values : List String
  deriving DecidableEq, Repr

inductive Command where
  | emit (order : EmitOrder)
  | check (order : CheckOrder)
  deriving DecidableEq, Repr

/-- A command and how much the program is to tell about its work. -/
structure Invocation where
  command : Command
  verbosity : Nat
  deriving DecidableEq, Repr

end SchemaGuard
