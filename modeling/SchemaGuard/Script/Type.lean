import SchemaGuard.Schema.Definition
import SchemaGuard.Schema.Identifier
import SchemaGuard.Text.Quoted

/-!
The spelling of references as types of the emitted script, and of object keys.
-/

set_option autoImplicit false
set_option relaxedAutoImplicit false

namespace SchemaGuard

mutual
/-- The type that a reference is written as. -/
def TypeRef.spelling : TypeRef → String
  | .primitive .bytes => "number[]"
  | .primitive p => p.name
  | .named name | .parameter name => name
  | .generic name [] => name
  | .generic name args => name ++ "<" ++ TypeRef.spellings args ++ ">"
  | .sequence (.nullable inner) => "(" ++ inner.spelling ++ " | null)[]"
  | .sequence inner => inner.spelling ++ "[]"
  | .map inner => "\x7b [key: string]: " ++ inner.spelling ++ " \x7d"
  | .tuple elements => "[" ++ TypeRef.spellings elements ++ "]"
  | .nullable inner => inner.spelling ++ " | null"

def TypeRef.spellings : List TypeRef → String
  | [] => ""
  | [t] => t.spelling
  | t :: ts => t.spelling ++ ", " ++ TypeRef.spellings ts
end

namespace Script

/-- A key of an object type, quoted unless it is a plain identifier. -/
def key (name : String) : String :=
  if Identifier.isPlain name then name else Text.quoted name

end Script

end SchemaGuard
