/-!
Names that can stand in emitted code: identifiers, less the reserved words and the names that the
code gives a meaning of its own.
-/

set_option autoImplicit false
set_option relaxedAutoImplicit false

namespace SchemaGuard.Identifier

def isStart (c : Char) : Bool := c.isAlpha || c == '_' || c == '$'

def isPart (c : Char) : Bool := isStart c || c.isDigit

/-- Names that cannot be the name of a type or of a guard. -/
def reserved : List String := [
  "any", "await", "bigint", "boolean", "break", "bytes", "case", "catch", "class", "const",
  "continue", "debugger", "default", "delete", "do", "else", "enum", "export", "extends",
  "false", "finally", "for", "function", "if", "implements", "import", "in", "instanceof",
  "interface", "let", "never", "new", "null", "number", "object", "package", "private",
  "protected", "public", "record", "return", "static", "string", "super", "switch", "symbol",
  "this", "throw", "true", "try", "typeof", "undefined", "unknown", "var", "void", "while",
  "with", "yield"]

/-- A letter, underscore or dollar sign, followed by these and digits, all of them ASCII. -/
def isPlain (name : String) : Bool :=
  match name.toList with
  | [] => false
  | c :: rest => isStart c && rest.all isPart

/-- The name can be the name of a type or of a guard. -/
def isUsable (name : String) : Bool := isPlain name && !reserved.contains name

end SchemaGuard.Identifier
