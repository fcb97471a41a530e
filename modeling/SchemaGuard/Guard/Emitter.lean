import SchemaGuard.Guard.Scope
import SchemaGuard.Options
import SchemaGuard.Resolution.Resolve
import SchemaGuard.Script.Tree

/-!
The guards of a schema as a script: a prelude with the guards of primitives, a guard for each type
without parameters, and for each generic type a factory that takes a checker for each parameter.
A generic type applied to arguments is instantiated once: as a constant of the module if the
arguments mention no parameter, else as a variable of the factory around it that is filled at its
first use. A variable, counted afresh for every definition, stands for the parts of a value.
-/

set_option autoImplicit false
set_option relaxedAutoImplicit false

namespace SchemaGuard.Script

/-- An instantiation and the name bound to it. -/
structure Binding where
  site : TypeRef
  name : String
  init : Expr

inductive Origin where
  | prelude
  | type (name : String)
  | instantiations
  deriving DecidableEq, Repr

/-- The items that come from one place. -/
structure ItemBlock where
  origin : Origin
  items : List Item

/-- What emission carries along. -/
structure Emission where
  /-- The instantiations of the module, in order of their first use. -/
  constants : List Binding := []
  /-- Those of the factory that is being emitted, if one is. -/
  lazies : Option (List Binding) := none
  /-- The names that no further binding may take. -/
  taken : List String := []
  /-- How many variables the definition has used. -/
  used : Nat := 0

abbrev Emit := StateM Emission

/-- What emission of one definition looks things up in. -/
structure Context where
  schema : Schema
  options : Options
  scope : Scope

def isNamePart (c : Char) : Bool := c.isAlphanum || c == '_' || c == '$'

/-- Writes an underscore for every character that is no part of a name, and one for any number of
them in a row; `reversed` is what has been written so far. -/
def wordFrom (reversed : List Char) : List Char → List Char
  | [] => reversed
  | c :: rest =>
    let c := if isNamePart c then c else '_'
    if c = '_' ∧ reversed.head? = some '_' then wordFrom reversed rest
    else wordFrom (c :: reversed) rest

/-- A text made part of a name, without underscores at its end. -/
def word (text : String) : String :=
  String.ofList ((wordFrom [] text.toList).dropWhile (· == '_')).reverse

/-- The first of `base`, `base_2`, `base_3`, … that is not taken, among as many as can be taken and
one more. -/
def unused (taken : List String) (base : String) : String :=
  let later := (List.range taken.length).map fun n => base ++ "_" ++ toString (n + 2)
  ((base :: later).find? fun name => !taken.contains name).getD base

def freshVariable : Emit String :=
  modifyGet fun s => ("x" ++ toString (s.used + 1), { s with used := s.used + 1 })

/-- A name for the instantiation of a use site, taken from now on. -/
def bindingName (options : Options) (site : TypeRef) : Emit String :=
  modifyGet fun s =>
    let name := unused s.taken (options.guardName (word site.display))
    (name, { s with taken := name :: s.taken })

def bound? (bindings : List Binding) (site : TypeRef) : Option String :=
  (bindings.find? fun b => b.site == site).map Binding.name

/-- The factory of an instantiation applied to checkers: the guard around it if it is recursive, the
module's constant, or the factory's variable. -/
def instantiate (options : Options) (inst : Instantiation) (args : List Expr) : Emit Expr := do
  if inst.recursive then return .name selfName
  let init := Expr.call (.name (options.factoryName inst.definition.name)) args
  let s ← get
  match s.lazies with
  | some lazies =>
    if inst.concrete then constant s init
    else
      match bound? lazies inst.site with
      | some name => return .parens (.fill name init)
      | none =>
        let name ← bindingName options inst.site
        modify fun s => { s with lazies := some (lazies ++ [⟨inst.site, name, init⟩]) }
        return .parens (.fill name init)
  | none => constant s init
where
  constant (s : Emission) (init : Expr) : Emit Expr := do
    match bound? s.constants inst.site with
    | some name => return .name name
    | none =>
      let name ← bindingName options inst.site
      modify fun s => { s with constants := s.constants ++ [⟨inst.site, name, init⟩] }
      return .name name

def never : Expr := .parens (.arrow "_" .boolean (.bool false))

namespace Context

def guardName (c : Context) (type : String) : Expr := .name (c.options.guardName type)

def isRecord (c : Context) (e : Expr) : Expr := .call (c.guardName "record") [e]

/-- The guard of a name, if it names a definition without parameters. -/
def monomorphic (c : Context) (name : String) : Expr :=
  match c.schema.monomorphic? name with
  | some d => c.guardName d.name
  | none => never

end Context

/-- The checker itself, or applied to a subject. -/
def applied (subject : Option Expr) (checker : Expr) : Expr :=
  match subject with
  | none => checker
  | some e => .call checker [e]

/-- A condition on a subject, or without one the function of its subject, as a guard of `t`. -/
def onSubject (t : TypeRef) (subject : Option Expr) (condition : Expr → Emit Expr) : Emit Expr :=
  match subject with
  | some e => condition e
  | none => do
    let x ← freshVariable
    let body ← condition (.name x)
    return .parens (.arrow x (.guard t) body)

mutual
/-- The condition that the subject has the type of a reference; without a subject, the checker of
the reference. -/
def reference (c : Context) : TypeRef → Option Expr → Emit Expr
  | .primitive p, none => return c.guardName p.name
  | .primitive .bytes, some e => return .call (c.guardName Primitive.bytes.name) [e]
  | .primitive p, some e => return .equals (.typeOf e) (.string p.name)
  | .parameter name, subject =>
    return applied subject <|
      match c.scope.index? name with
      | some _ => .name (checkerName name)
      | none => never
  | .named name, subject => return applied subject (c.monomorphic name)
  | .generic name [], subject => return applied subject (c.monomorphic name)
  | .generic name (t :: ts), subject =>
    match c.schema.instantiation? c.scope name (t :: ts) with
    | none => return applied subject never
    | some inst => do
      let arg ← reference c t none
      let args ← arguments c ts
      return applied subject (← instantiate c.options inst (arg :: args))
  | .sequence inner, subject =>
    onSubject (.sequence inner) subject fun e => do
      let x ← freshVariable
      let body ← reference c inner (some (.name x))
      return .both e.isArray (e.every x .unknown body)
  | .map inner, subject =>
    onSubject (.map inner) subject fun e => do
      let x ← freshVariable
      let body ← reference c inner (some (.name x))
      return .both (c.isRecord e) (e.valuesOf.every x .unknown body)
  | .tuple elements, subject =>
    onSubject (.tuple elements) subject fun e =>
      let sized := Expr.equals (.property e "length") (.number elements.length)
      tuple c e 0 (.both e.isArray sized) elements
  | .nullable inner, subject =>
    onSubject (.nullable inner) subject fun e => do
      let body ← reference c inner (some e)
      return .parens (.either (.equals e .null) body)

def arguments (c : Context) : List TypeRef → Emit (List Expr)
  | [] => return []
  | t :: ts => do
    let arg ← reference c t none
    let args ← arguments c ts
    return arg :: args

/-- The condition `found`, and that the items of `e` from number `i` on have the types of
references. -/
def tuple (c : Context) (e : Expr) (i : Nat) (found : Expr) : List TypeRef → Emit Expr
  | [] => return found
  | t :: ts => do
    let body ← reference c t (some (.index e (.number i)))
    tuple c e (i + 1) (.both found body) ts
end

def closedKeys (e : Expr) (allowed : List String) : Stmt :=
  match allowed with
  | [] => .rejectIf (.relate .different (.property e.keysOf "length") (.number 0))
  | allowed =>
    .rejectIf (.not (e.keysOf.every "k" .untyped (.isOneOf (.name "k") allowed)))

/-- Statements that reject an object unless each field that is there has its type and each required
one is there. -/
def fieldChecks (c : Context) (e : Expr) : List Field → Emit (List Stmt)
  | [] => return []
  | f :: rest => do
    let key := Expr.string f.name
    let own := Expr.owns e key
    let condition ← reference c f.type (some (.index e key))
    let fails := Expr.not (.parens condition)
    let check := Stmt.rejectIf (if f.required then .either (.not own) fails else .both own fails)
    let checks ← fieldChecks c e rest
    return check :: checks

def recordCheck (c : Context) (e : Expr) : Stmt := .rejectIf (.not (c.isRecord e))

def objectBody (c : Context) (x : String) (fields : List Field) : Emit (List Stmt) := do
  let e := Expr.name x
  let closed :=
    match c.options.shape with
    | .closed => [closedKeys e (fields.map Field.name)]
    | .opened => []
  let checks ← fieldChecks c e fields
  return recordCheck c e :: closed ++ checks ++ [.give (.bool true)]

def caseBodies (c : Context) : List Variant → Emit (List (String × List Stmt))
  | [] => return []
  | v :: rest => do
    let body ← objectBody c payloadKey v.fields
    let bodies ← caseBodies c rest
    return (v.tag, body) :: bodies

def definitionBody (c : Context) : Definition → Emit (List Stmt)
  | .struct d => objectBody c subjectName d.fields
  | .union d => do
    let e := Expr.name subjectName
    let closed :=
      match c.options.shape with
      | .closed => [closedKeys e [tagKey, payloadKey]]
      | .opened => []
    let cases ← caseBodies c d.variants
    return recordCheck c e :: closed
      ++ [.bind payloadKey (.index e (.string payloadKey)),
        .switch (.index e (.string tagKey)) cases]
  | .enum d => return [.give (.isOneOf (.name subjectName) d.members)]
  | .alias d => return [.give (← reference c d.target (some (.name subjectName)))]

/-- The guard of a definition without parameters, or the factory of one with parameters. -/
def definitionItem (schema : Schema) (options : Options) (d : Definition) : Emit Item := do
  let c : Context := ⟨schema, options, Scope.of d⟩
  modify fun s => { s with used := 0 }
  if d.isGeneric then
    modify fun s => { s with lazies := some [] }
    let body ← definitionBody c d
    let lazies := ((← get).lazies.getD []).map fun b => Lazy.mk b.name b.site
    modify fun s => { s with lazies := none }
    return .factory options.exported (options.factoryName d.name) d.name d.params lazies body
  else
    let body ← definitionBody c d
    let subject := Subject.type (.named d.name)
    return .guard options.exported (options.guardName d.name) subjectName subject body

/-- The guard of records and those of the primitives. -/
def prelude (options : Options) : List Item :=
  let v := Expr.name "v"
  let b := Expr.name "b"
  let guard (type : String) (subject : Subject) (e : Expr) : Item :=
    .guard options.exported (options.guardName type) "v" subject [.give e]
  let kind (p : Primitive) : Item :=
    guard p.name (.type (.primitive p)) (.equals (.typeOf v) (.string p.name))
  let isInteger := Expr.call (.property (.name "Number") "isInteger") [b]
  let inRange := Expr.both (.relate .atLeast b (.number 0)) (.relate .atMost b (.number 255))
  [ guard "record" .record
      (.both (.both (.equals (.typeOf v) (.string "object")) (.relate .different v .null))
        (.not v.isArray)),
    kind .boolean, kind .number, kind .string,
    guard Primitive.bytes.name (.type (.primitive .bytes))
      (.both v.isArray (v.every "b" .untyped (.both isInteger inRange))) ]

/-- An emitter between definitions: the blocks emitted so far, and what is carried along. -/
structure Emitter where
  schema : Schema
  options : Options
  blocks : List ItemBlock
  emission : Emission

namespace Emitter

/-- The names that the guards of a schema and the prelude have. -/
def reservedNames (schema : Schema) (options : Options) : List String :=
  (schema.types.flatMap fun d => [options.guardName d.name, options.factoryName d.name])
    ++ options.guardName "record" :: Primitive.all.map fun p => options.guardName p.name

/-- Nothing but the prelude. -/
def start (schema : Schema) (options : Options) : Emitter where
  schema := schema
  options := options
  blocks := [⟨.prelude, prelude options⟩]
  emission := { taken := reservedNames schema options }

/-- Emits the block of a definition. -/
def emit (e : Emitter) (d : Definition) : Emitter :=
  let (item, emission) := (definitionItem e.schema e.options d).run e.emission
  { e with blocks := e.blocks ++ [⟨.type d.name, [item]⟩], emission := emission }

/-- All blocks, with the module's instantiations at the end if there are any. -/
def finish (e : Emitter) : List ItemBlock :=
  match e.emission.constants with
  | [] => e.blocks
  | constants =>
    e.blocks ++ [⟨.instantiations, constants.map fun b => .constant b.name b.init⟩]

end Emitter

/-- The guard blocks of a schema. -/
def guardBlocks (schema : Schema) (options : Options) : List ItemBlock :=
  (schema.types.foldl Emitter.emit (Emitter.start schema options)).finish

end SchemaGuard.Script
