import Mathlib.Data.List.Infix
import SchemaGuard.FileSystem.Path

/-!
Paths and the names that they are made of. A path that is made of names is read as those names, and
the paths above it are made of fewer of them.
-/

set_option autoImplicit false
set_option relaxedAutoImplicit false

namespace SchemaGuard.Path

variable {loc : List String} {name : String}

def IsName (name : String) : Prop := stays name = false ∧ separator ∉ name.toList

theorem ofNames_concat (hne : loc ≠ []) (name : String) :
    ofNames (loc ++ [name]) = ofNames loc ++ "/" ++ name := by
  rw [ofNames, ofNames, String.intercalate_append_of_ne_nil hne (List.cons_ne_nil name []),
    String.intercalate_singleton]

end SchemaGuard.Path
