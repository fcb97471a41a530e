/-!
References to types: primitives, names, applied generic names, parameters, and the containers built
from them. `substitute` puts arguments in the place of parameters, all at once.
-/

set_option autoImplicit false
set_option relaxedAutoImplicit false

namespace SchemaGuard

inductive Primitive where
  | boolean
  | number
  | string
  | bytes
  deriving DecidableEq, Repr

namespace Primitive

def all : List Primitive := [.boolean, .number, .string, .bytes]

def name : Primitive → String
  | .boolean => "boolean"
  | .number => "number"
  | .string => "string"
  | .bytes => "bytes"

def ofName? (name : String) : Option Primitive := all.find? fun p => p.name == name

end Primitive

inductive TypeRef where
  | primitive (p : Primitive)
  | named (name : String)
  | generic (name : String) (args : List TypeRef)
  | sequence (element : TypeRef)
  | parameter (name : String)
  | map (value : TypeRef)
  | tuple (elements : List TypeRef)
  | nullable (inner : TypeRef)
  deriving Repr, Inhabited

namespace TypeRef

mutual
def decEq : (s t : TypeRef) → Decidable (s = t)
  | .primitive p, t =>
    match t with
    | .primitive q => if h : p = q then isTrue (h ▸ rfl) else isFalse (by simp [h])
    | .named _ | .generic .. | .sequence _ | .parameter _ | .map _ | .tuple _ | .nullable _ =>
      isFalse (by simp)
  | .named a, t =>
    match t with
    | .named b => if h : a = b then isTrue (h ▸ rfl) else isFalse (by simp [h])
    | .primitive _ | .generic .. | .sequence _ | .parameter _ | .map _ | .tuple _ | .nullable _ =>
      isFalse (by simp)
  | .generic a xs, t =>
    match t with
    | .generic b ys =>
      if h : a = b then
        match decEqList xs ys with
        | isTrue h' => isTrue (by rw [h, h'])
        | isFalse h' => isFalse (by simp [h'])
      else isFalse (by simp [h])
    | .primitive _ | .named _ | .sequence _ | .parameter _ | .map _ | .tuple _ | .nullable _ =>
      isFalse (by simp)
  | .sequence a, t =>
    match t with
    | .sequence b =>
      match decEq a b with
      | isTrue h => isTrue (by rw [h])
      | isFalse h => isFalse (by simp [h])
    | .primitive _ | .named _ | .generic .. | .parameter _ | .map _ | .tuple _ | .nullable _ =>
      isFalse (by simp)
  | .parameter a, t =>
    match t with
    | .parameter b => if h : a = b then isTrue (h ▸ rfl) else isFalse (by simp [h])
    | .primitive _ | .named _ | .generic .. | .sequence _ | .map _ | .tuple _ | .nullable _ =>
      isFalse (by simp)
  | .map a, t =>
    match t with
    | .map b =>
      match decEq a b with
      | isTrue h => isTrue (by rw [h])
      | isFalse h => isFalse (by simp [h])
    | .primitive _ | .named _ | .generic .. | .sequence _ | .parameter _ | .tuple _ | .nullable _ =>
      isFalse (by simp)
  | .tuple xs, t =>
    match t with
    | .tuple ys =>
      match decEqList xs ys with
      | isTrue h => isTrue (by rw [h])
      | isFalse h => isFalse (by simp [h])
    | .primitive _ | .named _ | .generic .. | .sequence _ | .parameter _ | .map _ | .nullable _ =>
      isFalse (by simp)
  | .nullable a, t =>
    match t with
    | .nullable b =>
      match decEq a b with
      | isTrue h => isTrue (by rw [h])
      | isFalse h => isFalse (by simp [h])
    | .primitive _ | .named _ | .generic .. | .sequence _ | .parameter _ | .map _ | .tuple _ =>
      isFalse (by simp)

def decEqList : (xs ys : List TypeRef) → Decidable (xs = ys)
  | [], [] => isTrue rfl
  | [], _ :: _ => isFalse (by simp)
  | _ :: _, [] => isFalse (by simp)
  | x :: xs, y :: ys =>
    match decEq x y, decEqList xs ys with
    | isTrue h, isTrue h' => isTrue (by rw [h, h'])
    | isFalse h, _ => isFalse (by simp [h])
    | _, isFalse h' => isFalse (by simp [h'])
end

instance : DecidableEq TypeRef := decEq

mutual
/-- A parameter occurs somewhere in the reference. -/
def mentionsParameter : TypeRef → Bool
  | .parameter _ => true
  | .primitive _ | .named _ => false
  | .generic _ args => anyMentionsParameter args
  | .tuple elements => anyMentionsParameter elements
  | .sequence inner | .map inner | .nullable inner => mentionsParameter inner

def anyMentionsParameter : List TypeRef → Bool
  | [] => false
  | t :: ts => mentionsParameter t || anyMentionsParameter ts
end

def argument? (params : List String) (args : List TypeRef) (name : String) : Option TypeRef :=
  match params.idxOf? name with
  | some i => args[i]?
  | none => none

mutual
/-- Replaces each parameter among `params` by the argument at its place; one without an argument
stays. -/
def substitute (params : List String) (args : List TypeRef) : TypeRef → TypeRef
  | .parameter name => (argument? params args name).getD (.parameter name)
  | .primitive p => .primitive p
  | .named name => .named name
  | .generic name inner => .generic name (substituteAll params args inner)
  | .tuple elements => .tuple (substituteAll params args elements)
  | .sequence inner => .sequence (substitute params args inner)
  | .map inner => .map (substitute params args inner)
  | .nullable inner => .nullable (substitute params args inner)

def substituteAll (params : List String) (args : List TypeRef) : List TypeRef → List TypeRef
  | [] => []
  | t :: ts => substitute params args t :: substituteAll params args ts
end

mutual
/-- The notation of diagnostics. A user's type may be named like a container, so two references can
have one notation. -/
def display : TypeRef → String
  | .primitive p => p.name
  | .named name | .parameter name => name
  | .generic name args => name ++ "<" ++ displayList args ++ ">"
  | .sequence inner => "Sequence<" ++ display inner ++ ">"
  | .map inner => "Map<" ++ display inner ++ ">"
  | .tuple elements => "(" ++ displayList elements ++ ")"
  | .nullable inner => "Nullable<" ++ display inner ++ ">"

def displayList : List TypeRef → String
  | [] => ""
  | [t] => display t
  | t :: ts => display t ++ ", " ++ displayList ts
end

end TypeRef

end SchemaGuard
