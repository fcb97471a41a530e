import SchemaGuard.Artifacts
import SchemaGuard.CommandLine.Command
import SchemaGuard.CommandLine.Error
import SchemaGuard.Document.Reader
import SchemaGuard.FileSystem.Expansion
import SchemaGuard.Guard.Validator
import SchemaGuard.Text.Blank

/-!
Running a command in a directory. A run that emits either prints the whole product, or writes it to
one file, or fails; it writes and prints nothing before the product is made, and a failure to write
leaves what was made and written until then. A run that checks values tells of each file in order
until one cannot be read.
-/

set_option autoImplicit false
set_option relaxedAutoImplicit false

namespace SchemaGuard

/-- How a run ends. -/
inductive Conclusion where
  | success
  | rejected
  | failure (e : RunError)
  deriving DecidableEq, Repr

def Conclusion.ofEnding : Except RunError Unit → Conclusion
  | .ok () => .success
  | .error e => .failure e

def Conclusion.exitCode : Conclusion → Nat
  | .success => 0
  | .rejected | .failure _ => 1

/-- The conclusion when a value of the wrong type was met, too. -/
def Conclusion.withRejection : Conclusion → Conclusion
  | .success | .rejected => .rejected
  | .failure e => .failure e

/-- What a run leaves: the text printed, the directory and how it ended. -/
structure Outcome where
  printed : String
  directory : Directory
  ending : Conclusion

namespace Directory

/-- The paths that one pattern stands for, of which there have to be some; a text that is no pattern
stands for itself. -/
def pathsOf (d : Directory) (pattern : String) : Except RunError (List String) :=
  if Pattern.isPattern pattern then
    match Pattern.ofText pattern with
    | .error e => .error (.badPattern pattern e)
    | .ok p =>
      match d.matching p with
      | [] => .error (.nothingMatches pattern)
      | paths => .ok paths
  else .ok [pattern]

def paths (d : Directory) (patterns : List String) : Except RunError (List String) :=
  return (← patterns.mapM d.pathsOf).flatten

def schemaAt (d : Directory) (path : String) : Except RunError Schema :=
  match d.read path with
  | .error e => .error (.unreadableSchema path e)
  | .ok text => (Schema.ofText path text).mapError .badDocument

def schema (d : Directory) (patterns : List String) : Except RunError ResolvedSchema := do
  let schemas ← (← d.paths patterns).mapM d.schemaAt
  (schemas.foldl Schema.append Schema.empty).resolve.mapError .badSchema

def valueAt (d : Directory) (path : String) : Except RunError Json :=
  match d.read path with
  | .error e => .error (.unreadableValue path e)
  | .ok text => (Json.ofText text).mapError fun f => .badValue path (f.causeText text)

def deliver (d : Directory) (path text : String) : Work RunError :=
  let above := (Path.upward path).drop 1
  match d.makeFolders above with
  | ⟨d, .error e⟩ => ⟨d, .error (.cannotMakeFolder (above.head?.getD "") e)⟩
  | ⟨d, .ok ()⟩ =>
    let saved := d.save path text
    ⟨saved.left, saved.ending.mapError (.cannotWrite path)⟩

end Directory

/-- The type that a text names: a type or primitive by its name, or a reference in its JSON form. -/
def TypeRef.ofWord (s : String) : Except RunError TypeRef :=
  let s := Text.trimmed s
  match s.toList with
  | [] => .error .emptyType
  | '\x7b' :: _ => (TypeRef.ofText "--type" s).mapError .badDocument
  | _ =>
    match Primitive.ofName? s with
    | some p => .ok (.primitive p)
    | none => .ok (.named s)

namespace EmitOrder

/-- The product's text. -/
def text (o : EmitOrder) (d : Directory) : Except RunError String := do
  o.options.validate.mapError .options
  let artifacts := Artifacts.of (← d.schema o.schema) o.options
  match o.product with
  | .declarations => return artifacts.declarationsText
  | .guards => return artifacts.guardsText
  | .bundle => return artifacts.bundleText

def run (o : EmitOrder) (d : Directory) : Outcome :=
  match o.text d with
  | .error e => ⟨"", d, .failure e⟩
  | .ok text =>
    match o.out with
    | none => ⟨text, d, .success⟩
    | some path =>
      let work := d.deliver path text
      ⟨"", work.left, .ofEnding work.ending⟩

end EmitOrder

namespace CheckOrder

def validator (o : CheckOrder) (d : Directory) : Except RunError Validator := do
  let guards : Guards := ⟨← d.schema o.schema, o.shape⟩
  (guards.validatorFor (← TypeRef.ofWord o.type)).mapError .unusableType

def line (passed : Bool) (path : String) : String :=
  (if passed then "✅ pass " else "❌ fail ") ++ path ++ "\n"

def report (check : Validator) (d : Directory) : List String → String × Conclusion
  | [] => ("", .success)
  | path :: rest =>
    match d.valueAt path with
    | .error e => ("", .failure e)
    | .ok v =>
      let passed := check v
      let (printed, ending) := report check d rest
      (line passed path ++ printed, if passed then ending else ending.withRejection)

def run (o : CheckOrder) (d : Directory) : Outcome :=
  let job : Except RunError (Validator × List String) := do
    let check ← o.validator d
    return (check, ← d.paths o.values)
  match job with
  | .error e => ⟨"", d, .failure e⟩
  | .ok (check, paths) =>
    let (printed, ending) := report check d paths
    ⟨printed, d, ending⟩

end CheckOrder

def Command.run (c : Command) (d : Directory) : Outcome :=
  match c with
  | .emit order => order.run d
  | .check order => order.run d

end SchemaGuard
