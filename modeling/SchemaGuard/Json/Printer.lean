import SchemaGuard.Json.Value
import SchemaGuard.Number.Shortest
import SchemaGuard.Text.Quoted

/-!
The compact text of a JSON value: no blank between tokens, members in their order.
-/

set_option autoImplicit false
set_option relaxedAutoImplicit false

namespace SchemaGuard

def Number.text : Number → String
  | .integer i => toString i
  | .binary x => x.text

namespace Json

mutual
/-- The compact text of a value. -/
def compact : Json → String
  | .null => "null"
  | .bool true => "true"
  | .bool false => "false"
  | .number n => n.text
  | .string s => Text.quoted s
  | .array items => "[" ++ compactItems items ++ "]"
  | .object members => "\x7b" ++ compactMembers members ++ "\x7d"

def compactItems : List Json → String
  | [] => ""
  | [x] => compact x
  | x :: xs => compact x ++ "," ++ compactItems xs

def compactMembers : List (String × Json) → String
  | [] => ""
  | [(k, x)] => Text.quoted k ++ ":" ++ compact x
  | (k, x) :: xs => Text.quoted k ++ ":" ++ compact x ++ "," ++ compactMembers xs
end

end Json

end SchemaGuard
