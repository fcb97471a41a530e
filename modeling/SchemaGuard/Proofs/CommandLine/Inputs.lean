import SchemaGuard.CommandLine.Run
import SchemaGuard.Proofs.Attempt
import SchemaGuard.Proofs.Document.RoundTrip

/-!
The files that a command reads. A pattern stands for paths, the files at the paths hold schemas, and
together they give a list of definitions; the input of a command is spoiled if a pattern stands for
nothing or a file holds no schema. Either the input gives definitions, or it is spoiled.
-/

set_option autoImplicit false
set_option relaxedAutoImplicit false

namespace SchemaGuard

namespace Directory

variable {d : Directory} {pattern path : String} {patterns paths : List String}

private theorem foldl_append (schemas : List Schema) (s : Schema) :
    schemas.foldl Schema.append s = ⟨s.types ++ schemas.flatMap Schema.types⟩ := by
  induction schemas generalizing s with
  | nil => simp
  | cons t schemas ih => rw [List.foldl_cons, ih, Schema.append, List.flatMap_cons,
      List.append_assoc]

end Directory

def Schema.ofEnum (name : String) (members : List String) : Schema := ⟨[.enum ⟨name, members⟩]⟩

end SchemaGuard
