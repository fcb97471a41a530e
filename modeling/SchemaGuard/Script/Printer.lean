import SchemaGuard.Script.Tree
import SchemaGuard.Script.Type
import SchemaGuard.Text.Indent

/-!
The text of a script: no more parentheses than the tree holds, one statement a line, two blanks a
level.
-/

set_option autoImplicit false
set_option relaxedAutoImplicit false

namespace SchemaGuard.Script

def Subject.text : Subject → String
  | .type t => t.spelling
  | .record => "Record<string, unknown>"

def ArrowType.head (x : String) : ArrowType → String
  | .untyped => "(" ++ x ++ ")"
  | .unknown => "(" ++ x ++ ": unknown)"
  | .guard t => "(" ++ x ++ ": unknown): " ++ x ++ " is " ++ t.spelling
  | .boolean => "(" ++ x ++ ": unknown): boolean"

def Relation.text : Relation → String
  | .equal => "==="
  | .different => "!=="
  | .atLeast => ">="
  | .atMost => "<="

mutual
def Expr.text : Expr → String
  | .bool true => "true"
  | .bool false => "false"
  | .null => "null"
  | .number n => toString n
  | .string s => Text.quoted s
  | .name x => x
  | .index object key => object.text ++ "[" ++ key.text ++ "]"
  | .property object p => object.text ++ "." ++ p
  | .call function args => function.text ++ "(" ++ Expr.texts args ++ ")"
  | .typeOf e => "typeof " ++ e.text
  | .not e => "!" ++ e.text
  | .relate r a b => a.text ++ " " ++ r.text ++ " " ++ b.text
  | .both a b => a.text ++ " && " ++ b.text
  | .either a b => a.text ++ " || " ++ b.text
  | .parens e => "(" ++ e.text ++ ")"
  | .arrow x type body => type.head x ++ " => " ++ body.text
  | .fill x init => x ++ " ??= " ++ init.text

def Expr.texts : List Expr → String
  | [] => ""
  | [e] => e.text
  | e :: es => e.text ++ ", " ++ Expr.texts es
end

mutual
def Stmt.text : Stmt → String
  | .rejectIf condition => "if (" ++ condition.text ++ ") return false;\n"
  | .bind name e => "const " ++ name ++ " = " ++ e.text ++ ";\n"
  | .give e => "return " ++ e.text ++ ";\n"
  | .switch subject cases =>
    "switch (" ++ subject.text ++ ") \x7b\n" ++ Stmt.caseTexts cases
      ++ "  default:\n    return false;\n\x7d\n"

def Stmt.texts : List Stmt → String
  | [] => ""
  | s :: rest => s.text ++ Stmt.texts rest

def Stmt.caseTexts : List (String × List Stmt) → String
  | [] => ""
  | (value, body) :: rest =>
    "  case " ++ Text.quoted value ++ ": \x7b\n" ++ Text.indent 2 (Stmt.texts body) ++ "  \x7d\n"
      ++ Stmt.caseTexts rest
end

def exportWord (exported : Bool) : String := if exported then "export " else ""

def Lazy.text (l : Lazy) : String :=
  "let " ++ l.name ++ ": ((v: unknown) => v is " ++ l.type.spelling ++ ") | undefined;\n"

def Item.text : Item → String
  | .guard exported name param subject body =>
    exportWord exported ++ "function " ++ name ++ "(" ++ param ++ ": unknown): " ++ param ++ " is "
      ++ subject.text ++ " \x7b\n" ++ Text.indent 1 (Stmt.texts body) ++ "\x7d"
  | .factory exported name type params lazies body =>
    let subject := type ++ "<" ++ ", ".intercalate params ++ ">"
    let checkers := params.map fun p => checkerName p ++ ": (v: unknown) => v is " ++ p
    let inner := String.join (lazies.map Lazy.text)
      ++ "const " ++ selfName ++ " = (" ++ subjectName ++ ": unknown): " ++ subjectName ++ " is "
      ++ subject ++ " => \x7b\n" ++ Text.indent 1 (Stmt.texts body) ++ "\x7d;\n"
      ++ "return " ++ selfName ++ ";\n"
    exportWord exported ++ "function " ++ name ++ "<" ++ ", ".intercalate params ++ ">("
      ++ ", ".intercalate checkers ++ "): (" ++ subjectName ++ ": unknown) => " ++ subjectName
      ++ " is " ++ subject ++ " \x7b\n" ++ Text.indent 1 inner ++ "\x7d"
  | .constant name init => "const " ++ name ++ " = " ++ init.text ++ ";"

def Item.texts (items : List Item) : String := "\n".intercalate (items.map Item.text)

end SchemaGuard.Script
