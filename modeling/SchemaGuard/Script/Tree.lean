import SchemaGuard.Schema.TypeRef

/-!
The part of a script language that guards are written in: expressions, statements, and the items of
a module. Statements stand in functions of one subject, and what they bind is never assigned again.
-/

set_option autoImplicit false
set_option relaxedAutoImplicit false

namespace SchemaGuard.Script

/-- The type that a guard finds its subject to have. -/
inductive Subject where
  | type (t : TypeRef)
  | record

/-- How the parameter and the result of an arrow function are typed. -/
inductive ArrowType where
  | untyped
  | unknown
  | guard (t : TypeRef)
  | boolean

inductive Relation where
  | equal
  | different
  | atLeast
  | atMost
  deriving DecidableEq, Repr

inductive Expr where
  | bool (b : Bool)
  | null
  | number (n : Nat)
  | string (s : String)
  | name (x : String)
  | index (object key : Expr)
  | property (object : Expr) (property : String)
  | call (function : Expr) (args : List Expr)
  | typeOf (e : Expr)
  | not (e : Expr)
  | relate (r : Relation) (a b : Expr)
  | both (a b : Expr)
  | either (a b : Expr)
  | parens (e : Expr)
  | arrow (param : String) (type : ArrowType) (body : Expr)
  /-- Gives `name` the value of `init` unless it has one, and is the value of `name`. -/
  | fill (name : String) (init : Expr)
  deriving Inhabited

inductive Stmt where
  /-- Returns false if the condition holds. -/
  | rejectIf (condition : Expr)
  | bind (name : String) (e : Expr)
  | give (e : Expr)
  /-- Runs the statements beside the string that the subject equals, or returns false. -/
  | switch (subject : Expr) (cases : List (String × List Stmt))

/-- A variable of a factory that holds an instantiation from its first use on. -/
structure Lazy where
  name : String
  type : TypeRef

inductive Item where
  | guard (exported : Bool) (name param : String) (subject : Subject) (body : List Stmt)
  | factory (exported : Bool) (name type : String) (params : List String) (lazies : List Lazy)
      (body : List Stmt)
  | constant (name : String) (init : Expr)

def subjectName : String := "obj"

def selfName : String := "guard"

def checkerName (param : String) : String := "check_" ++ param

namespace Expr

def isArray (e : Expr) : Expr := .call (.property (.name "Array") "isArray") [e]

def every (list : Expr) (x : String) (type : ArrowType) (body : Expr) : Expr :=
  .call (.property list "every") [.arrow x type body]

def keysOf (e : Expr) : Expr := .call (.property (.name "Object") "keys") [e]

def valuesOf (e : Expr) : Expr := .call (.property (.name "Object") "values") [e]

def owns (object key : Expr) : Expr :=
  .call
    (.property (.property (.property (.name "Object") "prototype") "hasOwnProperty") "call")
    [object, key]

def equals (a b : Expr) : Expr := .relate .equal a b

def any : Expr → List Expr → Expr
  | e, [] => e
  | e, f :: fs => any (.either e f) fs

def isOneOf (subject : Expr) : List String → Expr
  | [] => .bool false
  | s :: rest => any (equals subject (.string s)) (rest.map fun s => equals subject (.string s))

end Expr

end SchemaGuard.Script
