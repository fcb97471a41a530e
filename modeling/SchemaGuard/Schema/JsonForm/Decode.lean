import SchemaGuard.Document.Failure
import SchemaGuard.Schema.Definition

/-!
Reading the parts of a schema from JSON values that are already in memory. A record is an object
whose unknown keys are passed over, or the list of its fields in declared order; a key may be left
out if it has a default, and no known key may come twice.
-/

set_option autoImplicit false
set_option relaxedAutoImplicit false

namespace SchemaGuard

def Json.found : Json → Found
  | .null => .null
  | .bool b => .bool b
  | .number n => .number n
  | .string s => .string s
  | .array _ => .sequence
  | .object _ => .map

namespace Json

def mismatch {α : Type} (x : Json) (expected : String) : Except Cause α :=
  .error (.invalidType x.found expected)

def string? (x : Json) : Except Cause String :=
  match x with
  | .string s => .ok s
  | x => x.mismatch "a string"

def bool? (x : Json) : Except Cause Bool :=
  match x with
  | .bool b => .ok b
  | x => x.mismatch "a boolean"

def list? {α : Type} (item : Json → Except Cause α) (x : Json) : Except Cause (List α) :=
  match x with
  | .array items => items.mapM item
  | x => x.mismatch "a sequence"

end Json

/-- The content a constructor's name announces. -/
inductive Shape where
  | primitive
  | named
  | generic
  | sequence
  | parameter
  | map
  | tuple
  | nullable
  deriving DecidableEq, Repr

namespace Shape

def all : List Shape :=
  [.primitive, .named, .generic, .sequence, .parameter, .map, .tuple, .nullable]

def name : Shape → String
  | .primitive => "primitive"
  | .named => "named"
  | .generic => "generic"
  | .sequence => "sequence"
  | .parameter => "parameter"
  | .map => "map"
  | .tuple => "tuple"
  | .nullable => "nullable"

def ofName (name : String) : Except Cause Shape :=
  match all.find? fun s => s.name == name with
  | some s => .ok s
  | none => .error (.unknownVariant name (all.map Shape.name))

def content : Shape → String
  | .generic => "struct variant"
  | _ => "newtype variant"

def bare (s : Shape) : Cause := .invalidType .bareVariant s.content

end Shape

namespace Primitive

def ofName (name : String) : Except Cause Primitive :=
  match Primitive.ofName? name with
  | some p => .ok p
  | none => .error (.unknownVariant name (Primitive.all.map Primitive.name))

/-- A primitive is its name, or an object with the name as key and nothing as content. -/
def ofJson (x : Json) : Except Cause Primitive :=
  match x with
  | .string s => ofName s
  | .object [(k, content)] => do
    let p ← ofName k
    match content with
    | .null | .object [] => return p
    | other => other.mismatch "unit"
  | .object _ => .error .notSingleKey
  | x => x.mismatch "string or map"

end Primitive

def genericTitle : String := "struct variant TypeRef::Generic"

/-- Builds a generic reference from its two keys, `missing` telling what it means that one is not
there. -/
def genericOf (missing : String → Cause) (name : Option String) (args : Option (List TypeRef)) :
    Except Cause TypeRef :=
  match name, args with
  | none, _ => .error (missing "name")
  | some _, none => .error (missing "args")
  | some name, some args => .ok (.generic name args)

mutual
def TypeRef.ofJson : Json → Except Cause TypeRef
  | .string s => do
    let shape ← Shape.ofName s
    .error shape.bare
  | .object [(k, x)] => do
    match ← Shape.ofName k with
    | .primitive => return .primitive (← Primitive.ofJson x)
    | .named => return .named (← x.string?)
    | .parameter => return .parameter (← x.string?)
    | .sequence => return .sequence (← TypeRef.ofJson x)
    | .map => return .map (← TypeRef.ofJson x)
    | .nullable => return .nullable (← TypeRef.ofJson x)
    | .tuple =>
      match x with
      | .array items => return .tuple (← TypeRef.ofJsonList items)
      | x => x.mismatch "a sequence"
    | .generic =>
      match x with
      | .object members => TypeRef.genericOfMembers members none none
      | .array items => TypeRef.genericOfItems items
      | x => x.mismatch "struct variant"
  | .object _ => .error .notSingleKey
  | x => x.mismatch "string or map"

def TypeRef.ofJsonList : List Json → Except Cause (List TypeRef)
  | [] => return []
  | x :: xs => do
    let t ← TypeRef.ofJson x
    return t :: (← TypeRef.ofJsonList xs)

def TypeRef.genericOfMembers :
    List (String × Json) → Option String → Option (List TypeRef) → Except Cause TypeRef
  | [], name, args => genericOf .missingField name args
  | (k, x) :: rest, name, args =>
    if k = "name" then
      if name.isSome then .error (.duplicateField k)
      else do
        let s ← x.string?
        TypeRef.genericOfMembers rest (some s) args
    else if k = "args" then
      if args.isSome then .error (.duplicateField k)
      else
        match x with
        | .array items => do
          let ts ← TypeRef.ofJsonList items
          TypeRef.genericOfMembers rest name (some ts)
        | x => x.mismatch "a sequence"
    else TypeRef.genericOfMembers rest name args

def TypeRef.genericOfItems : List Json → Except Cause TypeRef
  | [] => .error (.invalidLength 0 (genericTitle ++ " with 2 elements"))
  | [x] => do
    let _ ← x.string?
    .error (.invalidLength 1 (genericTitle ++ " with 2 elements"))
  | x :: y :: rest => do
    let name ← x.string?
    match y with
    | .array items =>
      let args ← TypeRef.ofJsonList items
      if rest.isEmpty then return .generic name args
      else .error (.invalidLength (rest.length + 2) "2 elements in sequence")
    | y => y.mismatch "a sequence"
end

/-- How to read a record: its title in diagnostics, its keys in declared order, what each key
contributes, and the whole, given what it means that a key is missing. -/
structure Record (σ α : Type) where
  title : String
  keys : List String
  blank : σ
  step : String → Json → σ → Except Cause σ
  finish : (String → Cause) → σ → Except Cause α

namespace Record

variable {σ α : Type}

/-- Reads the members of known keys in their order; `seen` are the known keys met before. -/
def members (r : Record σ α) : List (String × Json) → List String → σ → Except Cause σ
  | [], _, s => .ok s
  | (k, x) :: rest, seen, s =>
    if k ∈ r.keys then
      if k ∈ seen then .error (.duplicateField k)
      else do
        let s ← r.step k x s
        r.members rest (k :: seen) s
    else r.members rest seen s

/-- Reads a record from an object, or from the list of its fields. -/
def read (r : Record σ α) (x : Json) : Except Cause α :=
  match x with
  | .object ms => do
    let s ← r.members ms [] r.blank
    r.finish .missingField s
  | .array items => do
    let count := toString r.keys.length ++ " elements"
    let s ← r.members (r.keys.zip items) [] r.blank
    let whole ← r.finish
      (fun k => .invalidLength (r.keys.idxOf k) (r.title ++ " with " ++ count)) s
    if items.length ≤ r.keys.length then return whole
    else .error (.invalidLength items.length (count ++ " in sequence"))
  | x => x.mismatch r.title

end Record

def demand {α : Type} (missing : String → Cause) (key : String) (value : Option α) :
    Except Cause α :=
  match value with
  | some a => .ok a
  | none => .error (missing key)

/-- The keys of a field that have been read. -/
structure FieldDraft where
  name : Option String := none
  type : Option TypeRef := none
  required : Bool := true

def Field.record : Record FieldDraft Field where
  title := "struct FieldDef"
  keys := ["name", "ty", "required"]
  blank := {}
  step key x draft :=
    match key with
    | "name" => return { draft with name := some (← x.string?) }
    | "ty" => return { draft with type := some (← TypeRef.ofJson x) }
    | _ => return { draft with required := ← x.bool? }
  finish missing draft := do
    let name ← demand missing "name" draft.name
    let type ← demand missing "ty" draft.type
    return ⟨name, type, draft.required⟩

def Field.ofJson : Json → Except Cause Field := Field.record.read

/-- The keys of a variant that have been read. -/
structure VariantDraft where
  tag : Option String := none
  fields : List Field := []

def Variant.record : Record VariantDraft Variant where
  title := "struct VariantDef"
  keys := ["tag", "fields"]
  blank := {}
  step key x draft :=
    match key with
    | "tag" => return { draft with tag := some (← x.string?) }
    | _ => return { draft with fields := ← x.list? Field.ofJson }
  finish missing draft := do
    let tag ← demand missing "tag" draft.tag
    return ⟨tag, draft.fields⟩

def Variant.ofJson : Json → Except Cause Variant := Variant.record.read

/-- The keys of a definition that have been read, whatever its kind. -/
structure DefinitionDraft where
  name : Option String := none
  params : List String := []
  fields : List Field := []
  variants : List Variant := []
  members : List String := []
  target : Option TypeRef := none

def DefinitionDraft.step (key : String) (x : Json) (draft : DefinitionDraft) :
    Except Cause DefinitionDraft :=
  match key with
  | "name" => return { draft with name := some (← x.string?) }
  | "params" => return { draft with params := ← x.list? Json.string? }
  | "fields" => return { draft with fields := ← x.list? Field.ofJson }
  | "variants" => return { draft with variants := ← x.list? Variant.ofJson }
  | "members" => return { draft with members := ← x.list? Json.string? }
  | _ => return { draft with target := some (← TypeRef.ofJson x) }

def Struct.record : Record DefinitionDraft Struct where
  title := "struct StructDef"
  keys := ["name", "params", "fields"]
  blank := {}
  step := DefinitionDraft.step
  finish missing draft := do
    let name ← demand missing "name" draft.name
    return ⟨name, draft.params, draft.fields⟩

def Union.record : Record DefinitionDraft Union where
  title := "struct UnionDef"
  keys := ["name", "variants"]
  blank := {}
  step := DefinitionDraft.step
  finish missing draft := do
    let name ← demand missing "name" draft.name
    return ⟨name, draft.variants⟩

def Enum.record : Record DefinitionDraft Enum where
  title := "struct EnumDef"
  keys := ["name", "members"]
  blank := {}
  step := DefinitionDraft.step
  finish missing draft := do
    let name ← demand missing "name" draft.name
    return ⟨name, draft.members⟩

def Alias.record : Record DefinitionDraft Alias where
  title := "struct AliasDef"
  keys := ["name", "params", "ty"]
  blank := {}
  step := DefinitionDraft.step
  finish missing draft := do
    let name ← demand missing "name" draft.name
    let target ← demand missing "ty" draft.target
    return ⟨name, draft.params, target⟩

inductive Kind where
  | struct
  | union
  | enum
  | alias
  deriving DecidableEq, Repr

namespace Kind

def all : List Kind := [.struct, .union, .enum, .alias]

def name : Kind → String
  | .struct => "struct"
  | .union => "union"
  | .enum => "enum"
  | .alias => "alias"

def ofName (name : String) : Except Cause Kind :=
  match all.find? fun k => k.name == name with
  | some k => .ok k
  | none => .error (.unknownVariant name (all.map Kind.name))

end Kind

/-- Reads a definition of a known kind from its other members, or from the list of its fields. -/
def Definition.ofContent (kind : Kind) (content : Json) : Except Cause Definition :=
  match kind with
  | .struct => return .struct (← Struct.record.read content)
  | .union => return .union (← Union.record.read content)
  | .enum => return .enum (← Enum.record.read content)
  | .alias => return .alias (← Alias.record.read content)

end SchemaGuard
