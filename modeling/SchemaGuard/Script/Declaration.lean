import SchemaGuard.Options
import SchemaGuard.Script.Printer

/-!
The definitions of a schema as type declarations, one for each.
-/

set_option autoImplicit false
set_option relaxedAutoImplicit false

namespace SchemaGuard.Script

def fieldText (f : Field) : String :=
  key f.name ++ (if f.required then "" else "?") ++ ": " ++ f.type.spelling

def objectText (fields : List Field) : String :=
  if fields.isEmpty then "\x7b\x7d"
  else "\x7b " ++ "; ".intercalate (fields.map fieldText) ++ " \x7d"

/-- The parameters of a type in angle brackets, if it has any. -/
def paramsText (params : List String) : String :=
  if params.isEmpty then "" else "<" ++ ", ".intercalate params ++ ">"

def headText (options : Options) (name : String) (params : List String) : String :=
  exportWord options.exported ++ "type " ++ name ++ paramsText params

def variantText (v : Variant) : String :=
  "\n  | \x7b " ++ tagKey ++ ": " ++ Text.quoted v.tag ++ "; " ++ payloadKey ++ ": "
    ++ objectText v.fields ++ " \x7d"

def bodyText : Definition → String
  | .struct d =>
    if d.fields.isEmpty then " = \x7b\x7d;"
    else
      let fields := d.fields.map fun f => "  " ++ fieldText f ++ ";\n"
      " = \x7b\n" ++ String.join fields ++ "\x7d;"
  | .union d =>
    if d.variants.isEmpty then " = never;"
    else " =" ++ String.join (d.variants.map variantText) ++ ";"
  | .enum d =>
    if d.members.isEmpty then " = never;"
    else " = " ++ " | ".intercalate (d.members.map Text.quoted) ++ ";"
  | .alias d => " = " ++ d.target.spelling ++ ";"

/-- The declaration of a definition. -/
def declaration (options : Options) (d : Definition) : String :=
  headText options d.name d.params ++ bodyText d

end SchemaGuard.Script
