import SchemaGuard.Guard.Emitter
import SchemaGuard.Script.Declaration

/-!
What a resolved schema is turned into: a block of text for each declaration and each group of
guards, and the modules made of them.
-/

set_option autoImplicit false
set_option relaxedAutoImplicit false

namespace SchemaGuard

/-- A piece of emitted text and where it comes from. -/
structure Block where
  origin : Script.Origin
  text : String
  deriving DecidableEq, Repr

namespace Block

def ofDefinition (options : Options) (d : Definition) : Block :=
  ⟨.type d.name, Script.declaration options d⟩

def ofItems (b : Script.ItemBlock) : Block := ⟨b.origin, Script.Item.texts b.items⟩

/-- The texts of blocks, each ended by a line feed, with an empty line between them. -/
def join (blocks : List Block) : String :=
  "\n".intercalate (blocks.map fun b => b.text ++ "\n")

end Block

structure Artifacts where
  declarations : List Block
  guards : List Block
  typeNames : List String
  options : Options

namespace Artifacts

/-- Everything emitted for a schema. -/
def of (r : ResolvedSchema) (options : Options) : Artifacts where
  declarations := r.types.map (Block.ofDefinition options)
  guards := (Script.guardBlocks r.schema options).map Block.ofItems
  typeNames := r.types.map Definition.name
  options := options

def declarationsText (a : Artifacts) : String := Block.join a.declarations

/-- The guards as a module of their own, which imports the declared types if it is told where from
and there are any. -/
def guardsText (a : Artifacts) : String :=
  let imports :=
    match a.options.typesModule with
    | some source =>
      if a.typeNames.isEmpty then ""
      else "import type \x7b " ++ ", ".intercalate a.typeNames ++ " \x7d from "
        ++ Text.quoted source ++ ";\n\n"
    | none => ""
  imports ++ Block.join a.guards

def bundleText (a : Artifacts) : String :=
  let declarations := a.declarationsText
  (if declarations.isEmpty then "" else declarations ++ "\n") ++ Block.join a.guards

end Artifacts

end SchemaGuard
