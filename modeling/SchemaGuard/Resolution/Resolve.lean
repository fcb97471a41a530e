import SchemaGuard.Resolution.Error
import SchemaGuard.Resolution.Expansion
import SchemaGuard.Resolution.Table
import SchemaGuard.Schema.Identifier

/-!
Resolution: every name is usable, nothing is declared twice, every reference names a defined type
with as many arguments as it has parameters, and no alias is cyclic. All errors are collected,
first those of names, then those of bodies, and those of cycles only if there are no others. A name
that is defined twice is judged by its first definition. What is resolved is the table of the
definitions; without errors their names differ, so the table has them all.
-/

set_option autoImplicit false
set_option relaxedAutoImplicit false

namespace SchemaGuard

namespace Schema

def arity? (s : Schema) (name : String) : Option Nat := (s.find? name).map fun d => d.params.length

/-- Errors in the names of definitions, `earlier` being the names of those before. -/
def nameErrors : List Definition → List String → List SchemaError
  | [], _ => []
  | d :: rest, earlier =>
    (if Identifier.isUsable d.name then [] else [.invalidIdentifier d.name .type])
      ++ (if d.name ∈ earlier then [.duplicateType d.name] else [])
      ++ nameErrors rest (d.name :: earlier)

/-- The error of naming `name` with `found` arguments where the parameters of `scope` are bound. A
parameter is no type. -/
def targetErrors (s : Schema) (site : Site) (scope : List String) (name : String) (found : Nat) :
    List SchemaError :=
  if name ∈ scope then [.invalidParameterUse site name]
  else
    match s.arity? name with
    | none => [.unresolvedReference site name]
    | some expected =>
      if expected = found then [] else [.arityMismatch site name expected found]

mutual
def referenceErrors (s : Schema) (site : Site) (scope : List String) :
    TypeRef → List SchemaError
  | .primitive _ => []
  | .parameter name => if name ∈ scope then [] else [.unboundParameter site name]
  | .named name => s.targetErrors site scope name 0
  | .generic name args =>
    s.targetErrors site scope name args.length ++ s.referencesErrors site scope args
  | .sequence inner | .map inner | .nullable inner => s.referenceErrors site scope inner
  | .tuple elements => s.referencesErrors site scope elements

def referencesErrors (s : Schema) (site : Site) (scope : List String) :
    List TypeRef → List SchemaError
  | [] => []
  | t :: ts => s.referenceErrors site scope t ++ s.referencesErrors site scope ts
end

def paramErrors (type : String) : List String → List String → List SchemaError
  | [], _ => []
  | p :: rest, earlier =>
    (if Identifier.isUsable p then [] else [.invalidIdentifier p .parameter])
      ++ (if p ∈ earlier then [.duplicateParameter type p] else [])
      ++ paramErrors type rest (p :: earlier)

def fieldErrors (s : Schema) (owner : Site) (scope : List String) :
    List Field → List String → List SchemaError
  | [], _ => []
  | f :: rest, earlier =>
    (if f.name ∈ earlier then [.duplicateField owner f.name] else [])
      ++ s.referenceErrors (owner.atField f.name) scope f.type
      ++ s.fieldErrors owner scope rest (f.name :: earlier)

def memberErrors (type : String) : List String → List String → List SchemaError
  | [], _ => []
  | m :: rest, earlier =>
    (if m ∈ earlier then [.duplicateMember type m] else []) ++ memberErrors type rest (m :: earlier)

def variantErrors (s : Schema) (union : String) : List Variant → List String → List SchemaError
  | [], _ => []
  | v :: rest, earlier =>
    (if v.tag ∈ earlier then [.duplicateTag union v.tag] else [])
      ++ s.fieldErrors { type := union, variant := some v.tag } [] v.fields []
      ++ s.variantErrors union rest (v.tag :: earlier)

def bodyErrors (s : Schema) : Definition → List SchemaError
  | .struct d =>
    paramErrors d.name d.params [] ++ s.fieldErrors { type := d.name } d.params d.fields []
  | .alias d =>
    paramErrors d.name d.params [] ++ s.referenceErrors { type := d.name } d.params d.target
  | .enum d => memberErrors d.name d.members []
  | .union d => s.variantErrors d.name d.variants []

def cycleErrors (s : Schema) : Definition → List SchemaError
  | .alias a => if s.isCyclic a then [.cyclicAlias a.name] else []
  | _ => []

def errors (s : Schema) : List SchemaError :=
  let found := nameErrors s.types [] ++ s.types.flatMap s.bodyErrors
  if found.isEmpty then s.types.flatMap s.cycleErrors else found

end Schema

namespace Schema

def table (s : Schema) : Table := .ofDefinitions s.types

private theorem nodup_of_nameErrors {ds : List Definition} {earlier : List String}
    (h : nameErrors ds earlier = []) :
    (ds.map Definition.name).Nodup ∧ ∀ d ∈ ds, d.name ∉ earlier := by
  induction ds generalizing earlier with
  | nil => simp
  | cons d ds ih =>
    simp only [nameErrors, List.append_eq_nil_iff] at h
    obtain ⟨⟨_, hnew⟩, hrest⟩ := h
    obtain ⟨hdistinct, hlater⟩ := ih hrest
    have hearlier : d.name ∉ earlier := by
      simpa using hnew
    refine ⟨List.nodup_cons.mpr ⟨fun hmem => ?_, hdistinct⟩, List.forall_mem_cons.mpr
      ⟨hearlier, fun e he hmem => hlater e he (List.mem_cons_of_mem _ hmem)⟩⟩
    obtain ⟨e, he, hname⟩ := List.mem_map.mp hmem
    exact hlater e he (hname ▸ List.mem_cons_self)

theorem nodup_of_errors {s : Schema} (h : s.errors = []) :
    (s.types.map Definition.name).Nodup := by
  have hnames : nameErrors s.types [] = [] := by
    unfold errors at h
    simp only at h
    split at h
    · next hfound => exact (List.append_eq_nil_iff.mp (List.isEmpty_iff.mp hfound)).1
    · next hfound => simp [h] at hfound
  exact (nodup_of_nameErrors hnames).1

@[simp] theorem values_table {s : Schema} (h : s.errors = []) : s.table.values = s.types :=
  Table.values_ofDefinitions (nodup_of_errors h)

end Schema

/-- A schema without errors. -/
structure ResolvedSchema where
  schema : Schema
  noErrors : schema.errors = []

namespace ResolvedSchema

/-- The definition of a name. -/
def get? (r : ResolvedSchema) (name : String) : Option Definition := r.schema.table.get? name

/-- The definitions in declared order. -/
def types (r : ResolvedSchema) : List Definition := r.schema.types

/-- The definitions as a schema that can be resolved again. -/
def toSchema (r : ResolvedSchema) : Schema := ⟨r.types⟩

/-- What the table of the definitions holds, as a schema. -/
def intoSchema (r : ResolvedSchema) : Schema := ⟨r.schema.table.values⟩

/-- Nothing is checked again. -/
def resolve (r : ResolvedSchema) : Except (List SchemaError) ResolvedSchema := .ok r

end ResolvedSchema

/-- What the table of a schema without errors holds, or all of its errors. -/
def Schema.resolve (s : Schema) : Except (List SchemaError) ResolvedSchema :=
  if h : s.errors = [] then .ok ⟨⟨s.table.values⟩, (Schema.values_table h).symm ▸ h⟩
  else .error s.errors

def Site.use : Site := { type := "<use>" }

/-- Checks a reference that stands in no definition. -/
def ResolvedSchema.checkUse (r : ResolvedSchema) (t : TypeRef) : Except (List SchemaError) Unit :=
  match r.schema.referenceErrors Site.use [] t with
  | [] => .ok ()
  | errors => .error errors

end SchemaGuard
