import SchemaGuard.Proofs.Number.Byte
import SchemaGuard.Script.Tree

/-!
What scripts do. Values are those that reading JSON gives, functions, and what property access
yields where an object has no such key of its own. Functions close over the names around them; what
is assigned after its declaration lies in a store. Evaluation is defined only where the language
gives the construct a result that does not depend on more than is kept here: there is no comparison
of objects with each other, and a number stands for its exact value.
-/

set_option autoImplicit false
set_option relaxedAutoImplicit false

namespace SchemaGuard.Script

/-- The part of the built-in objects that guards use. -/
inductive Builtin where
  | object
  | array
  | number
  | objectPrototype
  | hasOwnProperty
  | callHasOwnProperty
  | keys
  | values
  | isArray
  | isInteger
  | every (items : List Json)

inductive Body where
  | expr (e : Expr)
  | block (statements : List Stmt)

mutual
inductive Value where
  | undefined
  | json (v : Json)
  /-- What every object has under a key without having it itself. -/
  | inherited (key : String)
  | builtin (b : Builtin)
  /-- A function of the program that uses the module. -/
  | host (answers : Json → Bool)
  | function (name : String)
  | closure (env : List (String × Slot)) (param : String) (body : Body)

/-- What a name is bound to: a value, or a place in the store. -/
inductive Slot where
  | value (v : Value)
  | cell (address : Nat)
end

/-- The names in scope, the innermost first. -/
abbrev Env := List (String × Slot)

/-- The contents of the cells; nothing is in a cell whose declaration was not reached. -/
abbrev Store := List (Option Value)

namespace Value

def bool (b : Bool) : Value := json (.bool b)

def string (s : String) : Value := json (.string s)

def number (n : Nat) : Value := json (.number (.integer n))

end Value

def inheritedKeys : List String := ["constructor", "hasOwnProperty", "isPrototypeOf",
  "propertyIsEnumerable", "toLocaleString", "toString", "valueOf", "__proto__",
  "__defineGetter__", "__defineSetter__", "__lookupGetter__", "__lookupSetter__"]

def typeOf? : Value → Option String
  | .undefined => some "undefined"
  | .json (.bool _) => some "boolean"
  | .json (.number _) => some "number"
  | .json (.string _) => some "string"
  | .json _ => some "object"
  | .host _ | .function _ | .closure .. => some "function"
  | .inherited _ | .builtin _ => none

def strictEqual? : Value → Value → Option Bool
  | .undefined, .undefined => some true
  | .undefined, .json _ | .json _, .undefined => some false
  | .json (.array _), .json (.array _) | .json (.object _), .json (.object _) => none
  | .json .null, .json .null => some true
  | .json (.bool a), .json (.bool b) => some (a == b)
  | .json (.number m), .json (.number n) => some (decide (m.value = n.value))
  | .json (.string s), .json (.string t) => some (s == t)
  | .json _, .json _ => some false
  | _, _ => none

def relate? : Relation → Value → Value → Option Bool
  | .equal, a, b => strictEqual? a b
  | .different, a, b => (strictEqual? a b).map not
  | .atLeast, .json (.number m), .json (.number n) => some (decide (n.value ≤ m.value))
  | .atMost, .json (.number m), .json (.number n) => some (decide (m.value ≤ n.value))
  | _, _, _ => none

def index? : Value → Value → Option Value
  | .json (.object members), .json (.string key) =>
    match members.lookup key with
    | some v => some (.json v)
    | none => some (if key ∈ inheritedKeys then .inherited key else .undefined)
  | .json (.array items), .json (.number (.integer i)) =>
    if 0 ≤ i then
      match items[i.toNat]? with
      | some v => some (.json v)
      | none => some .undefined
    else none
  | _, _ => none

def property? : Value → String → Option Value
  | .builtin .object, "keys" => some (.builtin .keys)
  | .builtin .object, "values" => some (.builtin .values)
  | .builtin .object, "prototype" => some (.builtin .objectPrototype)
  | .builtin .objectPrototype, "hasOwnProperty" => some (.builtin .hasOwnProperty)
  | .builtin .hasOwnProperty, "call" => some (.builtin .callHasOwnProperty)
  | .builtin .array, "isArray" => some (.builtin .isArray)
  | .builtin .number, "isInteger" => some (.builtin .isInteger)
  | .json (.array items), "length" => some (.number items.length)
  | .json (.array items), "every" => some (.builtin (.every items))
  | _, _ => none

def Builtin.call? : Builtin → List Value → Option Value
  | .isArray, [.json (.array _)] => some (.bool true)
  | .isArray, [_] => some (.bool false)
  | .isInteger, [.json (.number n)] => some (.bool (decide (n.value.den = 1)))
  | .isInteger, [.json _] => some (.bool false)
  | .keys, [.json (.object members)] => some (.json (.array (members.map fun m => .string m.1)))
  | .values, [.json (.object members)] => some (.json (.array (members.map Prod.snd)))
  | .callHasOwnProperty, [.json (.object members), .json (.string key)] =>
    some (.bool (members.lookup key).isSome)
  | _, _ => none

/-- The items of a module, in order. -/
abbrev Module := List Item

def Item.name : Item → String
  | .guard _ name .. | .factory _ name .. | .constant name _ => name

def globals : Env := [("Object", .value (.builtin .object)), ("Array", .value (.builtin .array)),
  ("Number", .value (.builtin .number))]

namespace Module

def envFrom (address : Nat) : Module → Env
  | [] => globals
  | .constant name _ :: rest => (name, .cell address) :: envFrom (address + 1) rest
  | item :: rest => (item.name, .value (.function item.name)) :: envFrom address rest

def env (m : Module) : Env := m.envFrom 0

def item? (m : Module) (name : String) : Option Item := m.find? fun item => item.name == name

end Module

def Env.read? (env : Env) (x : String) (σ : Store) : Option Value :=
  match env.lookup x with
  | some (.value v) => some v
  | some (.cell a) => (σ[a]?).join
  | none => none

/-- Parameters bound to arguments; a parameter without an argument is undefined. -/
def bindParams : List String → List Value → Env
  | [], _ => []
  | p :: ps, args => (p, .value (args.headD .undefined)) :: bindParams ps args.tail

def bindCells : List String → Nat → Env
  | [], _ => []
  | x :: xs, address => (x, .cell address) :: bindCells xs (address + 1)

namespace Module

mutual
def eval (m : Module) (env : Env) (e : Expr) (σ : Store) : Option (Value × Store) :=
  match e with
  | .bool b => some (.bool b, σ)
  | .null => some (.json .null, σ)
  | .number n => some (.number n, σ)
  | .string s => some (.string s, σ)
  | .name x => (env.read? x σ).map fun v => (v, σ)
  | .index object key => do
    let (o, σ) ← m |>.eval env object σ
    let (k, σ) ← m |>.eval env key σ
    return (← index? o k, σ)
  | .property object p => do
    let (o, σ) ← m |>.eval env object σ
    return (← property? o p, σ)
  | .call function args => do
    let (f, σ) ← m |>.eval env function σ
    let (vs, σ) ← m |>.evalAll env args σ
    m |>.apply f vs σ
  | .typeOf e => do
    let (v, σ) ← m |>.eval env e σ
    return (.string (← typeOf? v), σ)
  | .not e => do
    match ← m |>.eval env e σ with
    | (.json (.bool b), σ) => return (.bool !b, σ)
    | _ => none
  | .relate r a b => do
    let (v, σ) ← m |>.eval env a σ
    let (w, σ) ← m |>.eval env b σ
    return (.bool (← relate? r v w), σ)
  | .both a b => do
    match ← m |>.eval env a σ with
    | (.json (.bool true), σ) => m |>.eval env b σ
    | (.json (.bool false), σ) => return (.bool false, σ)
    | _ => none
  | .either a b => do
    match ← m |>.eval env a σ with
    | (.json (.bool true), σ) => return (.bool true, σ)
    | (.json (.bool false), σ) => m |>.eval env b σ
    | _ => none
  | .parens e => m |>.eval env e σ
  | .arrow x _ body => some (.closure env x (.expr body), σ)
  | .fill x init =>
    match env.lookup x with
    | some (.cell a) =>
      match (σ[a]?).join with
      | some .undefined | some (.json .null) => do
        let (v, σ) ← m |>.eval env init σ
        return (v, σ.set a (some v))
      | some v => some (v, σ)
      | none => none
    | _ => none
partial_fixpoint

def evalAll (m : Module) (env : Env) (es : List Expr) (σ : Store) :
    Option (List Value × Store) :=
  match es with
  | [] => some ([], σ)
  | e :: es => do
    let (v, σ) ← m |>.eval env e σ
    let (vs, σ) ← m |>.evalAll env es σ
    return (v :: vs, σ)
partial_fixpoint

/-- What a function returns. -/
def apply (m : Module) (f : Value) (args : List Value) (σ : Store) : Option (Value × Store) :=
  match f with
  | .host answers =>
    match args with
    | .json v :: _ => some (.bool (answers v), σ)
    | _ => none
  | .closure env x (.expr e) => m |>.eval ((x, .value (args.headD .undefined)) :: env) e σ
  | .closure env x (.block body) => do
    match ← m |>.exec ((x, .value (args.headD .undefined)) :: env) body σ with
    | (some v, σ) => return (v, σ)
    | (none, σ) => return (.undefined, σ)
  | .function name =>
    match m.item? name with
    | some (.guard _ _ x _ body) => do
      match ← m |>.exec ((x, .value (args.headD .undefined)) :: m.env) body σ with
      | (some v, σ) => return (v, σ)
      | (none, σ) => return (.undefined, σ)
    | some (.factory _ _ _ params lazies body) =>
      -- The guard can name itself, so its cell comes before what is stored there.
      let cells := bindCells (lazies.map Lazy.name) σ.length
      let self := σ.length + lazies.length
      let given := bindParams (params.map checkerName) args
      let env := (selfName, .cell self) :: cells ++ given ++ m.env
      let guard := Value.closure env subjectName (.block body)
      some (guard, σ ++ lazies.map (fun _ => some .undefined) ++ [some guard])
    | _ => none
  | .builtin (.every items) =>
    match args with
    | [f] => m |>.every f items 0 items σ
    | _ => none
  | .builtin b => (b.call? args).map fun v => (v, σ)
  | _ => none
partial_fixpoint

/-- Whether a function is true of every item of the rest of a list, from number `i` on. -/
def every (m : Module) (f : Value) (list : List Json) (i : Nat) (rest : List Json) (σ : Store) :
    Option (Value × Store) :=
  match rest with
  | [] => some (.bool true, σ)
  | x :: rest => do
    match ← m |>.apply f [.json x, .number i, .json (.array list)] σ with
    | (.json (.bool true), σ) => m |>.every f list (i + 1) rest σ
    | (.json (.bool false), σ) => return (.bool false, σ)
    | _ => none
partial_fixpoint

/-- What statements return, if they return. -/
def exec (m : Module) (env : Env) (body : List Stmt) (σ : Store) :
    Option (Option Value × Store) :=
  match body with
  | [] => some (none, σ)
  | .rejectIf condition :: rest => do
    match ← m |>.eval env condition σ with
    | (.json (.bool true), σ) => return (some (.bool false), σ)
    | (.json (.bool false), σ) => m |>.exec env rest σ
    | _ => none
  | .bind x e :: rest => do
    let (v, σ) ← m |>.eval env e σ
    m |>.exec ((x, .value v) :: env) rest σ
  | .give e :: _ => do
    let (v, σ) ← m |>.eval env e σ
    return (some v, σ)
  | .switch subject cases :: _ => do
    let (v, σ) ← m |>.eval env subject σ
    m |>.execCases env (cases.dropWhile fun c => strictEqual? v (.string c.1) != some true) σ
partial_fixpoint

/-- Runs cases one after the other until one returns, and returns false if none does. -/
def execCases (m : Module) (env : Env) (cases : List (String × List Stmt)) (σ : Store) :
    Option (Option Value × Store) :=
  match cases with
  | [] => some (some (.bool false), σ)
  | (_, body) :: rest => do
    match ← m |>.exec env body σ with
    | (some v, σ) => return (some v, σ)
    | (none, σ) => m |>.execCases env rest σ
partial_fixpoint
end

end Module

open Script.Module (eval evalAll apply every exec execCases)

section Steps

variable {m : Module} {env : Env} {σ σ₁ σ₂ : Store} {a b : Expr} {v w : Value}

theorem Env.read?_value {x : String} (h : env.lookup x = some (.value v)) :
    env.read? x σ = some v := by
  rw [read?, h]

theorem Env.read?_cell {x : String} {address : Nat} (h : env.lookup x = some (.cell address))
    (hcell : σ[address]? = some (some v)) : env.read? x σ = some v := by
  rw [read?, h]
  exact congrArg Option.join hcell

section Leaves

attribute [local simp] eval

theorem eval_bool (b : Bool) : eval m env (.bool b) σ = some (.bool b, σ) := by
  simp

theorem eval_null : eval m env .null σ = some (.json .null, σ) := by
  simp

theorem eval_number (n : Nat) : eval m env (.number n) σ = some (.number n, σ) := by
  simp

theorem eval_string (s : String) : eval m env (.string s) σ = some (.string s, σ) := by
  simp

theorem eval_parens : eval m env (.parens a) σ = eval m env a σ := by
  simp

theorem eval_arrow (x : String) (type : ArrowType) :
    eval m env (.arrow x type a) σ = some (.closure env x (.expr a), σ) := by
  simp

end Leaves

theorem eval_name {x : String} (h : env.read? x σ = some v) :
    eval m env (.name x) σ = some (v, σ) := by
  rw [eval, h]
  rfl

theorem eval_index {x : Value} (ha : eval m env a σ = some (v, σ₁))
    (hb : eval m env b σ₁ = some (w, σ₂)) (hx : index? v w = some x) :
    eval m env (.index a b) σ = some (x, σ₂) := by
  rw [eval]
  simp [ha, hb, hx]

theorem eval_property {p : String} (ha : eval m env a σ = some (v, σ₁))
    (hw : property? v p = some w) : eval m env (.property a p) σ = some (w, σ₁) := by
  rw [eval]
  simp [ha, hw]

theorem eval_call {args : List Expr} {vs : List Value} (ha : eval m env a σ = some (v, σ₁))
    (hargs : evalAll m env args σ₁ = some (vs, σ₂)) :
    eval m env (.call a args) σ = apply m v vs σ₂ := by
  rw [eval]
  simp [ha, hargs]

theorem eval_typeOf {type : String} (ha : eval m env a σ = some (v, σ₁))
    (htype : typeOf? v = some type) : eval m env (.typeOf a) σ = some (.string type, σ₁) := by
  rw [eval]
  simp [ha, htype]

theorem eval_not {c : Bool} (ha : eval m env a σ = some (.bool c, σ₁)) :
    eval m env (.not a) σ = some (.bool !c, σ₁) := by
  rw [eval]
  simp [ha, Value.bool]

theorem eval_relate {r : Relation} {c : Bool} (ha : eval m env a σ = some (v, σ₁))
    (hb : eval m env b σ₁ = some (w, σ₂)) (hc : relate? r v w = some c) :
    eval m env (.relate r a b) σ = some (.bool c, σ₂) := by
  rw [eval]
  simp [ha, hb, hc]

private theorem eval_both : eval m env (.both a b) σ = (eval m env a σ).bind fun r =>
    match r with
    | (.json (.bool true), σ) => eval m env b σ
    | (.json (.bool false), σ) => some (.bool false, σ)
    | _ => none := by
  rw [eval]
  rfl

private theorem eval_either : eval m env (.either a b) σ = (eval m env a σ).bind fun r =>
    match r with
    | (.json (.bool true), σ) => some (.bool true, σ)
    | (.json (.bool false), σ) => eval m env b σ
    | _ => none := by
  rw [eval]
  rfl

/-- A first operand of `&&` that is true leaves the second. -/
theorem eval_both_true (ha : eval m env a σ = some (.bool true, σ₁)) :
    eval m env (.both a b) σ = eval m env b σ₁ := by
  rw [eval_both, ha]
  rfl

theorem eval_both_false (ha : eval m env a σ = some (.bool false, σ₁)) :
    eval m env (.both a b) σ = some (.bool false, σ₁) := by
  rw [eval_both, ha]
  rfl

theorem eval_either_true (ha : eval m env a σ = some (.bool true, σ₁)) :
    eval m env (.either a b) σ = some (.bool true, σ₁) := by
  rw [eval_either, ha]
  rfl

theorem eval_either_false (ha : eval m env a σ = some (.bool false, σ₁)) :
    eval m env (.either a b) σ = eval m env b σ₁ := by
  rw [eval_either, ha]
  rfl

/-- It makes no difference how the operands of `&&` in a row are paired up. -/
theorem eval_both_assoc (a b c : Expr) :
    eval m env (.both (.both a b) c) σ = eval m env (.both a (.both b c)) σ := by
  rw [eval_both, eval_both, eval_both, Option.bind_assoc]
  congr 1
  funext r
  split
  · rw [eval_both]
  · rfl
  · rfl

theorem eval_fill_undefined {x : String} {address : Nat}
    (hx : env.lookup x = some (.cell address)) (hcell : σ[address]? = some (some .undefined))
    (ha : eval m env a σ = some (v, σ₁)) :
    eval m env (.fill x a) σ = some (v, σ₁.set address (some v)) := by
  rw [eval]
  simp [hx, hcell, ha]

theorem eval_fill_function {x : String} {address : Nat}
    (hx : env.lookup x = some (.cell address)) (hcell : σ[address]? = some (some v))
    (hundefined : v ≠ .undefined) (hnull : v ≠ .json .null) :
    eval m env (.fill x a) σ = some (v, σ) := by
  rw [eval]
  simp only [hx, hcell, Option.join_some]

theorem evalAll_nil : evalAll m env [] σ = some ([], σ) := by
  rw [evalAll]

theorem evalAll_cons {es : List Expr} {vs : List Value} (ha : eval m env a σ = some (v, σ₁))
    (hes : evalAll m env es σ₁ = some (vs, σ₂)) :
    evalAll m env (a :: es) σ = some (v :: vs, σ₂) := by
  rw [evalAll]
  simp [ha, hes]

theorem apply_host {answers : Json → Bool} {x : Json} {args : List Value} :
    apply m (.host answers) (.json x :: args) σ = some (.bool (answers x), σ) := by
  rw [apply]

theorem apply_arrow {x : String} {args : List Value} :
    apply m (.closure env x (.expr a)) (v :: args) σ = eval m ((x, .value v) :: env) a σ := by
  rw [apply]
  rfl

theorem apply_block {x : String} {body : List Stmt} {args : List Value}
    (h : exec m ((x, .value v) :: env) body σ = some (some w, σ₁)) :
    apply m (.closure env x (.block body)) (v :: args) σ = some (w, σ₁) := by
  rw [apply]
  simp [h]

theorem apply_guard {name x : String} {exported : Bool} {subject : Subject} {body : List Stmt}
    {args : List Value} (hitem : m.item? name = some (.guard exported name x subject body))
    (h : exec m ((x, .value v) :: m.env) body σ = some (some w, σ₁)) :
    apply m (.function name) (v :: args) σ = some (w, σ₁) := by
  rw [apply]
  simp [hitem, h]

theorem apply_factory {name type : String} {exported : Bool} {params : List String}
    {lazies : List Lazy} {body : List Stmt} {args : List Value}
    (hitem : m.item? name = some (.factory exported name type params lazies body)) :
    let env := (selfName, .cell (σ.length + lazies.length))
      :: bindCells (lazies.map Lazy.name) σ.length
      ++ bindParams (params.map checkerName) args ++ m.env
    let guard := Value.closure env subjectName (.block body)
    apply m (.function name) args σ
      = some (guard, σ ++ lazies.map (fun _ => some .undefined) ++ [some guard]) := by
  intro env guard
  rw [apply, hitem]

theorem apply_every {items : List Json} : apply m (.builtin (.every items)) [v] σ
    = every m v items 0 items σ := by
  rw [apply]

theorem apply_builtin {f : Builtin} {args : List Value} (hevery : ∀ items, f ≠ .every items)
    (h : f.call? args = some v) : apply m (.builtin f) args σ = some (v, σ) := by
  rw [apply, h]
  · rfl
  · exact hevery

theorem every_nil {list : List Json} {i : Nat} :
    every m v list i [] σ = some (.bool true, σ) := by
  rw [every]

theorem every_true {list rest : List Json} {i : Nat} {x : Json}
    (h : apply m v [.json x, .number i, .json (.array list)] σ = some (.bool true, σ₁)) :
    every m v list i (x :: rest) σ = every m v list (i + 1) rest σ₁ := by
  rw [every]
  simp [h, Value.bool]

theorem every_false {list rest : List Json} {i : Nat} {x : Json}
    (h : apply m v [.json x, .number i, .json (.array list)] σ = some (.bool false, σ₁)) :
    every m v list i (x :: rest) σ = some (.bool false, σ₁) := by
  rw [every]
  simp [h, Value.bool]

theorem exec_reject {rest : List Stmt} (h : eval m env a σ = some (.bool true, σ₁)) :
    exec m env (.rejectIf a :: rest) σ = some (some (.bool false), σ₁) := by
  rw [exec]
  simp [h, Value.bool]

theorem exec_pass {rest : List Stmt} (h : eval m env a σ = some (.bool false, σ₁)) :
    exec m env (.rejectIf a :: rest) σ = exec m env rest σ₁ := by
  rw [exec]
  simp [h, Value.bool]

theorem exec_bind {x : String} {rest : List Stmt} (h : eval m env a σ = some (v, σ₁)) :
    exec m env (.bind x a :: rest) σ = exec m ((x, .value v) :: env) rest σ₁ := by
  rw [exec]
  simp [h]

theorem exec_give {rest : List Stmt} (h : eval m env a σ = some (v, σ₁)) :
    exec m env (.give a :: rest) σ = some (some v, σ₁) := by
  rw [exec]
  simp [h]

theorem exec_switch {cases : List (String × List Stmt)} {rest : List Stmt}
    (h : eval m env a σ = some (v, σ₁)) :
    exec m env (.switch a cases :: rest) σ = execCases m env
      (cases.dropWhile fun c => strictEqual? v (.string c.1) != some true) σ₁ := by
  rw [exec]
  simp [h]

theorem execCases_nil : execCases m env [] σ = some (some (.bool false), σ) := by
  rw [execCases]

theorem execCases_cons {value : String} {body : List Stmt} {rest : List (String × List Stmt)}
    (h : exec m env body σ = some (some v, σ₁)) :
    execCases m env ((value, body) :: rest) σ = some (some v, σ₁) := by
  rw [execCases]
  simp [h]

end Steps

end SchemaGuard.Script
