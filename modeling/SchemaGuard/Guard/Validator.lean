import SchemaGuard.Guard.Supply
import SchemaGuard.Json.Value
import SchemaGuard.Options
import SchemaGuard.Resolution.Resolve

/-!
Guards that run on values. A reference is checked in an environment that gives a validator for each
parameter of the definition around it. Unfolding definitions is bounded: between a value and its
parts at most `expansionLimit` aliases and one more definition are unfolded, which is what
resolution makes sure of, so the bound that `Guards.applied` takes from the depth of the value is
never reached.
-/

set_option autoImplicit false
set_option relaxedAutoImplicit false

namespace SchemaGuard

abbrev Validator := Json → Bool

def Primitive.accepts (p : Primitive) (v : Json) : Bool :=
  match p, v with
  | .boolean, .bool _ => true
  | .number, .number _ => true
  | .string, .string _ => true
  | .bytes, .array items =>
    items.all fun x =>
      match x with
      | .number n => n.isByte
      | _ => false
  | _, _ => false

mutual
/-- The values of a reference, given how definitions are unfolded and the validators of the
parameters in scope. -/
def TypeRef.accepts (s : Schema) (unfolded : Definition → List Validator → Validator)
    (scope : Scope) (env : List Validator) : TypeRef → Validator
  | .primitive p, v => p.accepts v
  | .parameter name, v =>
    match scope.index? name with
    | some i =>
      match env[i]? with
      | some check => check v
      | none => false
    | none => false
  | .named name, v =>
    match s.monomorphic? name with
    | some d => unfolded d [] v
    | none => false
  | .generic name args, v =>
    match s.generic? name args with
    | some d => unfolded d (TypeRef.validators s unfolded scope env args) v
    | none => false
  | .sequence inner, v =>
    match v with
    | .array items => items.all fun x => inner.accepts s unfolded scope env x
    | _ => false
  | .map inner, v =>
    match v with
    | .object members => members.all fun m => inner.accepts s unfolded scope env m.2
    | _ => false
  | .tuple elements, v =>
    match v with
    | .array items => TypeRef.acceptsEach s unfolded scope env elements items
    | _ => false
  | .nullable inner, v =>
    match v with
    | .null => true
    | v => inner.accepts s unfolded scope env v

def TypeRef.validators (s : Schema) (unfolded : Definition → List Validator → Validator)
    (scope : Scope) (env : List Validator) : List TypeRef → List Validator
  | [] => []
  | t :: ts =>
    (fun v => t.accepts s unfolded scope env v) :: TypeRef.validators s unfolded scope env ts

def TypeRef.acceptsEach (s : Schema) (unfolded : Definition → List Validator → Validator)
    (scope : Scope) (env : List Validator) : List TypeRef → List Json → Bool
  | [], [] => true
  | t :: ts, x :: xs =>
    t.accepts s unfolded scope env x && TypeRef.acceptsEach s unfolded scope env ts xs
  | _, _ => false
end

/-- The members of an object that meets the fields: every field that is there is accepted, every
required one is there, and under the closed policy nothing else is. -/
def Field.allAccept (shape : ShapePolicy) (check : TypeRef → Validator) (fields : List Field)
    (members : List (String × Json)) : Bool :=
  (shape != .closed || members.all fun m => fields.any fun f => f.name == m.1)
    && fields.all fun f =>
      match members.lookup f.name with
      | some v => check f.type v
      | none => !f.required

/-- The values of a union: an object with the tag of a variant and an object of that variant's
fields. -/
def Union.accepts (shape : ShapePolicy) (check : TypeRef → Validator) (u : Union) (v : Json) :
    Bool :=
  match v with
  | .object members =>
    (shape != .closed || members.all fun m => m.1 == tagKey || m.1 == payloadKey)
      && match members.lookup tagKey with
        | some (.string tag) =>
          match u.variant? tag, members.lookup payloadKey with
          | some variant, some (.object payload) =>
            Field.allAccept shape check variant.fields payload
          | _, _ => false
        | _ => false
  | _ => false

def Definition.accepts (shape : ShapePolicy) (check : TypeRef → Validator) :
    Definition → Validator
  | .struct d, v =>
    match v with
    | .object members => Field.allAccept shape check d.fields members
    | _ => false
  | .union d, v => d.accepts shape check v
  | .enum d, v =>
    match v with
    | .string member => d.members.contains member
    | _ => false
  | .alias d, v => check d.target v

/-- The values of a definition with its parameters bound, unfolding at most `n` definitions inside
each other. -/
def Schema.accepts (s : Schema) (shape : ShapePolicy) :
    Nat → Definition → List Validator → Validator
  | 0, _, _ => fun _ => false
  | n + 1, d, env =>
    d.accepts shape (TypeRef.accepts s (s.accepts shape n) (Scope.of d) env)

/-- How many definitions can be unfolded inside each other over a value. -/
def unfoldings (v : Json) : Nat := (expansionLimit + 2) * (v.depth + 1)

/-- The guards of a resolved schema. -/
structure Guards where
  resolved : ResolvedSchema
  shape : ShapePolicy

namespace Guards

def schema (g : Guards) : Schema := g.resolved.schema

def applied (g : Guards) (d : Definition) (env : List Validator) : Validator :=
  fun v => g.schema.accepts g.shape (unfoldings v) d env v

/-- The validator of a reference in a scope with its parameters bound. -/
def reference (g : Guards) (scope : Scope) (env : List Validator) (t : TypeRef) : Validator :=
  fun v => t.accepts g.schema (g.schema.accepts g.shape (unfoldings v)) scope env v

/-- Validators as checkers, where the parameters in scope are bound. -/
def backend (g : Guards) (env : List Validator) : Backend Id Validator where
  primitive p := p.accepts
  guard d := g.applied d []
  param i _ := env[i]?.getD fun _ => false
  apply inst args := g.applied inst.definition args
  structural t scope := g.reference scope env t
  never := fun _ => false

/-- The guard of a type without parameters. -/
def guard (g : Guards) (name : String) : Except UseError Validator :=
  match g.schema.find? name with
  | none => .error (.unknownType name)
  | some d => if d.isGeneric then .error (.generic name) else .ok (g.applied d [])

def genericDefinition (g : Guards) (name : String) : Except UseError Definition :=
  match g.schema.find? name with
  | none => .error (.unknownType name)
  | some d => if d.isGeneric then .ok d else .error (.notGeneric name)

/-- The factory of a generic type. Given another number of checkers than the type has parameters, it
makes a validator that rejects everything. -/
def factory (g : Guards) (name : String) : Except UseError (List Validator → Validator) := do
  let d ← g.genericDefinition name
  return fun checkers =>
    if checkers.length = d.params.length then g.applied d checkers else fun _ => false

/-- A generic type's factory applied to one checker for each parameter. -/
def instantiate (g : Guards) (name : String) (checkers : List Validator) :
    Except UseError Validator := do
  let d ← g.genericDefinition name
  if checkers.length = d.params.length then return g.applied d checkers
  else .error (.checkerCount name d.params.length checkers.length)

/-- The validator of a reference that stands in no definition. -/
def validatorFor (g : Guards) (t : TypeRef) : Except UseError Validator :=
  match g.resolved.checkUse t with
  | .error errors => .error (.schema errors)
  | .ok () => .ok (supply (g.backend []) g.schema Scope.empty t)

/-- Checks a value of a type without parameters. -/
def check (g : Guards) (name : String) (v : Json) : Except UseError Bool := do
  return (← g.guard name) v

end Guards

end SchemaGuard
