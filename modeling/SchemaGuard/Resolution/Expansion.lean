import SchemaGuard.Schema.Definition

/-!
Expansion of aliases at the head of a reference. An alias whose head meets the alias again, or is an
alias still after `expansionLimit` steps, passes through no value that a guard could consume.
-/

set_option autoImplicit false
set_option relaxedAutoImplicit false

namespace SchemaGuard

namespace TypeRef

/-- The reference less the nullables around it. -/
def core : TypeRef → TypeRef
  | .nullable inner => inner.core
  | t => t

/-- The type a reference names and the arguments it is applied to. -/
def target? : TypeRef → Option (String × List TypeRef)
  | .named name => some (name, [])
  | .generic name args => some (name, args)
  | _ => none

end TypeRef

/-- Expansion steps after which a chain of aliases counts as cyclic. -/
def expansionLimit : Nat := 64

namespace Schema

/-- The alias of a name, if that is what the name is first defined as. -/
def alias? (s : Schema) (name : String) : Option Alias :=
  match s.find? name with
  | some (.alias a) => some a
  | _ => none

/-- The head of `t` reaches the alias `target`, or is an alias after `steps` expansions. -/
def expandsTo (s : Schema) (target : String) : Nat → TypeRef → Bool
  | steps, t =>
    match t.core.target? with
    | none => false
    | some (name, args) =>
      match s.alias? name with
      | none => false
      | some a =>
        if name = target then true
        else
          match steps with
          | 0 => true
          | steps + 1 => s.expandsTo target steps (a.target.substitute a.params args)

theorem expandsTo_congr {s s' : Schema} (h : ∀ name, s.alias? name = s'.alias? name)
    (target : String) (steps : Nat) :
    ∀ t, s.expandsTo target steps t = s'.expandsTo target steps t := by
  induction steps with
  | zero =>
    intro t
    rw [expandsTo.eq_def, expandsTo.eq_def]
    simp only [h]
  | succ steps ih =>
    intro t
    rw [expandsTo.eq_def, expandsTo.eq_def]
    simp only [h, ih]

def isCyclic (s : Schema) (a : Alias) : Bool := s.expandsTo a.name expansionLimit a.target

end Schema

end SchemaGuard
