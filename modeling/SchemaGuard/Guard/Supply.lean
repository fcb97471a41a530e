import SchemaGuard.Guard.Scope

/-!
The checker of a reference, in whatever form a backend makes checkers. A parameter is never looked
at: the checker received for it is passed along.
-/

set_option autoImplicit false
set_option relaxedAutoImplicit false

namespace SchemaGuard

/-- How to make checkers of type `γ`, with effects in `m`. -/
structure Backend (m : Type → Type) (γ : Type) where
  primitive : Primitive → m γ
  guard : Definition → m γ
  param : Nat → String → m γ
  apply : Instantiation → List γ → m γ
  structural : TypeRef → Scope → m γ
  never : m γ

variable {m : Type → Type} [Monad m] {γ : Type}

/-- The guard of a name, if it names a definition without parameters. -/
def Backend.monomorphic (b : Backend m γ) (s : Schema) (name : String) : m γ :=
  match s.monomorphic? name with
  | some d => b.guard d
  | none => b.never

mutual
/-- The checker of a reference in a scope. Arguments come before the factory that takes them. -/
def supply (b : Backend m γ) (s : Schema) (scope : Scope) : TypeRef → m γ
  | .primitive p => b.primitive p
  | .parameter name =>
    match scope.index? name with
    | some i => b.param i name
    | none => b.never
  | .named name => b.monomorphic s name
  | .generic name [] => b.monomorphic s name
  | .generic name (t :: ts) =>
    match s.instantiation? scope name (t :: ts) with
    | some inst => do
      let c ← supply b s scope t
      let cs ← supplyAll b s scope ts
      b.apply inst (c :: cs)
    | none => b.never
  | .sequence inner => b.structural (.sequence inner) scope
  | .map inner => b.structural (.map inner) scope
  | .tuple elements => b.structural (.tuple elements) scope
  | .nullable inner => b.structural (.nullable inner) scope

def supplyAll (b : Backend m γ) (s : Schema) (scope : Scope) : List TypeRef → m (List γ)
  | [] => return []
  | t :: ts => do
    let c ← supply b s scope t
    let cs ← supplyAll b s scope ts
    return c :: cs
end

end SchemaGuard
