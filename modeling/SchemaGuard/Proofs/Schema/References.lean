import SchemaGuard.Guard.Scope

/-!
Induction over references, and what looking up in a schema and a scope finds.
-/

set_option autoImplicit false
set_option relaxedAutoImplicit false

namespace SchemaGuard

namespace TypeRef

/-- Induction over references, the arguments of a type and the elements of a tuple being smaller
than the whole. -/
@[elab_as_elim, induction_eliminator]
theorem nestedInduction {motive : TypeRef → Prop}
    (primitive : ∀ p, motive (.primitive p))
    (named : ∀ name, motive (.named name))
    (generic : ∀ name args, (∀ t ∈ args, motive t) → motive (.generic name args))
    (sequence : ∀ inner, motive inner → motive (.sequence inner))
    (parameter : ∀ name, motive (.parameter name))
    (map : ∀ inner, motive inner → motive (.map inner))
    (tuple : ∀ elements, (∀ t ∈ elements, motive t) → motive (.tuple elements))
    (nullable : ∀ inner, motive inner → motive (.nullable inner)) : ∀ t : TypeRef, motive t
  | .primitive p => primitive p
  | .named name => named name
  | .generic name args => generic name args fun t _ =>
      nestedInduction primitive named generic sequence parameter map tuple nullable t
  | .sequence inner => sequence inner
      (nestedInduction primitive named generic sequence parameter map tuple nullable inner)
  | .parameter name => parameter name
  | .map inner => map inner
      (nestedInduction primitive named generic sequence parameter map tuple nullable inner)
  | .tuple elements => tuple elements fun t _ =>
      nestedInduction primitive named generic sequence parameter map tuple nullable t
  | .nullable inner => nullable inner
      (nestedInduction primitive named generic sequence parameter map tuple nullable inner)

theorem substituteAll_eq_map (params : List String) (args : List TypeRef) (ts : List TypeRef) :
    substituteAll params args ts = ts.map (substitute params args) := by
  induction ts with
  | nil => rfl
  | cons t ts ih => simp only [substituteAll, ih, List.map_cons]

theorem anyMentionsParameter_eq_any (ts : List TypeRef) :
    anyMentionsParameter ts = ts.any mentionsParameter := by
  induction ts with
  | nil => rfl
  | cons t ts ih => simp only [anyMentionsParameter, ih, List.any_cons]

private theorem substitute_eq_self {params : List String} {args : List TypeRef}
    (h : ∀ name, argument? params args name = none) (t : TypeRef) :
    t.substitute params args = t := by
  induction t with
  | primitive p => rfl
  | named name => rfl
  | generic name args ih =>
    rw [substitute, substituteAll_eq_map, List.map_congr_left ih, List.map_id']
  | sequence inner ih => rw [substitute, ih]
  | parameter name => rw [substitute, h, Option.getD_none]
  | map inner ih => rw [substitute, ih]
  | tuple elements ih =>
    rw [substitute, substituteAll_eq_map, List.map_congr_left ih, List.map_id']
  | nullable inner ih => rw [substitute, ih]

theorem substitute_nil (params : List String) (t : TypeRef) : t.substitute params [] = t := by
  refine substitute_eq_self (fun name => ?_) t
  unfold argument?
  split <;> rfl

theorem substitute_no_params (args : List TypeRef) (t : TypeRef) : t.substitute [] args = t :=
  substitute_eq_self (fun _ => rfl) t

theorem substitute_closed {params : List String} {args : List TypeRef} {t : TypeRef}
    (h : t.mentionsParameter = false) : t.substitute params args = t := by
  have all : ∀ {ts : List TypeRef},
      (∀ t ∈ ts, t.mentionsParameter = false → t.substitute params args = t) →
      anyMentionsParameter ts = false → substituteAll params args ts = ts := by
    intro ts ih hts
    simp only [anyMentionsParameter_eq_any, List.any_eq_false, Bool.not_eq_true] at hts
    rw [substituteAll_eq_map, List.map_congr_left fun t ht => ih t ht (hts t ht), List.map_id']
  induction t with
  | primitive p => rfl
  | named name => rfl
  | generic name inner ih => rw [substitute, all ih h]
  | sequence inner ih => rw [substitute, ih h]
  | parameter name => cases h
  | map inner ih => rw [substitute, ih h]
  | tuple elements ih => rw [substitute, all ih h]
  | nullable inner ih => rw [substitute, ih h]

theorem substitute_parameter (scope : Scope) (args : List TypeRef) (name : String) :
    (parameter name).substitute scope.params args
      = ((scope.index? name).bind fun i => args[i]?).getD (.parameter name) := by
  rw [substitute, argument?, Scope.index?]
  cases scope.params.idxOf? name <;> rfl

end TypeRef

namespace Schema

variable {s : Schema} {name : String} {d : Definition}

theorem name_of_find? (h : s.find? name = some d) : d.name = name := by
  simpa using List.find?_some h

theorem mem_of_find? (h : s.find? name = some d) : d ∈ s.types := List.mem_of_find?_eq_some h

theorem find?_name (h : s.find? name = some d) : s.find? d.name = some d := by
  rw [name_of_find? h, h]

theorem monomorphic?_eq_some : s.monomorphic? name = some d ↔
    s.find? name = some d ∧ d.params = [] := by
  simp [monomorphic?, Definition.isGeneric]

theorem generic?_eq_some {args : List TypeRef} : s.generic? name args = some d ↔
    s.find? name = some d ∧ d.params.length = args.length := by
  simp [generic?]

theorem generic?_map {args : List TypeRef} (f : TypeRef → TypeRef) :
    s.generic? name (args.map f) = s.generic? name args := by
  simp [generic?]

theorem generic?_nil : s.generic? name [] = s.monomorphic? name := by
  unfold generic? monomorphic?
  congr 1
  funext d
  cases h : d.params <;> simp [Definition.isGeneric, h]

end Schema

end SchemaGuard
