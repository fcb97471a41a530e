import SchemaGuard.Json.Value
import SchemaGuard.Schema.Definition

/-!
The JSON form of a schema, as written: keys in declaration order with `kind` first, and `params`
left out when there are none.
-/

set_option autoImplicit false
set_option relaxedAutoImplicit false

namespace SchemaGuard

def Primitive.toJson (p : Primitive) : Json := .string p.name

mutual
/-- An object with one key, the name of the constructor. -/
def TypeRef.toJson : TypeRef → Json
  | .primitive p => .object [("primitive", p.toJson)]
  | .named name => .object [("named", .string name)]
  | .generic name args =>
    let args := Json.array (TypeRef.toJsonList args)
    .object [("generic", .object [("name", .string name), ("args", args)])]
  | .sequence inner => .object [("sequence", inner.toJson)]
  | .parameter name => .object [("parameter", .string name)]
  | .map inner => .object [("map", inner.toJson)]
  | .tuple elements => .object [("tuple", .array (TypeRef.toJsonList elements))]
  | .nullable inner => .object [("nullable", inner.toJson)]

def TypeRef.toJsonList : List TypeRef → List Json
  | [] => []
  | t :: ts => t.toJson :: TypeRef.toJsonList ts
end

def Field.toJson (f : Field) : Json :=
  .object [("name", .string f.name), ("ty", f.type.toJson), ("required", .bool f.required)]

private def strings (xs : List String) : Json := .array (xs.map .string)

/-- The member for the parameters, if there are any. -/
private def paramsMember (params : List String) : List (String × Json) :=
  if params.isEmpty then [] else [("params", strings params)]

private def fieldsMember (fields : List Field) : String × Json :=
  ("fields", .array (fields.map Field.toJson))

def Variant.toJson (v : Variant) : Json := .object [("tag", .string v.tag), fieldsMember v.fields]

def Definition.toJson : Definition → Json
  | .struct s =>
    .object ([("kind", .string "struct"), ("name", .string s.name)] ++ paramsMember s.params
      ++ [fieldsMember s.fields])
  | .union u =>
    .object [("kind", .string "union"), ("name", .string u.name),
      ("variants", .array (u.variants.map Variant.toJson))]
  | .enum e =>
    .object [("kind", .string "enum"), ("name", .string e.name), ("members", strings e.members)]
  | .alias a =>
    .object ([("kind", .string "alias"), ("name", .string a.name)] ++ paramsMember a.params
      ++ [("ty", a.target.toJson)])

def Schema.toJson (s : Schema) : Json := .object [("types", .array (s.types.map Definition.toJson))]

end SchemaGuard
