import SchemaGuard.Proofs.Resolution.WellFormed
import SchemaGuard.Proofs.Schema.References

/-!
Induction over the guards of a schema without cyclic aliases. References and definitions are given
meanings, the meaning of a definition being made from those of the references in it by unfolding
at most `n` definitions inside each other, and meanings have a property `fine depth`, to be read as
"fine on all values nested less deep than `depth`". If containers and objects are fine one level
deeper than their parts, and all other constructs as deep as theirs, then every definition with fine
arguments is fine at every depth: a value is taken apart before more aliases than `expansionLimit`
have been followed.
-/

set_option autoImplicit false
set_option relaxedAutoImplicit false

namespace SchemaGuard

/-- Every construct keeps `fine`, whatever the depth. -/
structure Guarded (s : Schema) {X : Type} (reference : Nat → Scope → List X → TypeRef → X)
    (definition : Nat → Definition → List X → X) (fine : Nat → X → Prop) : Prop where
  zero : ∀ {x}, fine 0 x
  weaken : ∀ {depth x}, fine (depth + 1) x → fine depth x
  primitive : ∀ {n scope env p depth}, fine depth (reference n scope env (.primitive p))
  parameter : ∀ {n scope env name depth},
    (∀ i x, scope.index? name = some i → env[i]? = some x → fine depth x) →
      fine depth (reference n scope env (.parameter name))
  named : ∀ {n scope env name depth},
    (∀ d, s.monomorphic? name = some d → fine depth (definition n d [])) →
      fine depth (reference n scope env (.named name))
  generic : ∀ {n scope env name args depth},
    (∀ d, s.generic? name args = some d →
      fine depth (definition n d (args.map (reference n scope env)))) →
        fine depth (reference n scope env (.generic name args))
  sequence : ∀ {n scope env inner depth}, fine depth (reference n scope env inner) →
    fine (depth + 1) (reference n scope env (.sequence inner))
  map : ∀ {n scope env inner depth}, fine depth (reference n scope env inner) →
    fine (depth + 1) (reference n scope env (.map inner))
  tuple : ∀ {n scope env elements depth},
    (∀ t ∈ elements, fine depth (reference n scope env t)) →
      fine (depth + 1) (reference n scope env (.tuple elements))
  nullable : ∀ {n scope env inner depth}, fine depth (reference n scope env inner) →
    fine depth (reference n scope env (.nullable inner))
  body : ∀ {n d env depth}, s.find? d.name = some d → env.length = d.params.length →
    (∀ a, d ≠ .alias a) → (∀ t ∈ d.references, fine depth (reference n (Scope.of d) env t)) →
      fine (depth + 1) (definition (n + 1) d env)
  target : ∀ {n a env depth}, s.find? a.name = some (.alias a) → env.length = a.params.length →
    fine depth (reference n (Scope.of (.alias a)) env a.target) →
      fine depth (definition (n + 1) (.alias a) env)

namespace Schema

variable {s : Schema} {target : String}

private theorem expandsTo_nullable (steps : Nat) (inner : TypeRef) :
    s.expandsTo target steps (.nullable inner) = s.expandsTo target steps inner := by
  rw [expandsTo.eq_def, expandsTo.eq_def]
  rfl

private theorem expandsTo_step {steps : Nat} {t : TypeRef} {name : String} {args : List TypeRef}
    {a : Alias} (htarget : t.core.target? = some (name, args)) (halias : s.alias? name = some a)
    (h : s.expandsTo target steps t = false) :
    ∃ fewer, steps = fewer + 1 ∧
      s.expandsTo target fewer (a.target.substitute a.params args) = false := by
  rw [expandsTo.eq_def] at h
  simp only [htarget, halias] at h
  split at h
  · simp at h
  · cases steps with
    | zero => simp at h
    | succ fewer => exact ⟨fewer, rfl, h⟩

private theorem alias?_of_find? {name : String} {a : Alias} (h : s.find? name = some (.alias a)) :
    s.alias? name = some a := by
  simp [alias?, h]

end Schema

namespace Guarded

variable {s : Schema} {X : Type} {reference : Nat → Scope → List X → TypeRef → X}
  {definition : Nat → Definition → List X → X} {fine : Nat → X → Prop}

/-- Definitions with fine arguments are fine at a depth, if `least` of them may be unfolded. -/
private def Founded (s : Schema) (definition : Nat → Definition → List X → X)
    (fine : Nat → X → Prop) (least depth : Nat) : Prop :=
  ∀ n, least ≤ n → ∀ d env, s.find? d.name = some d → env.length = d.params.length →
    (∀ x ∈ env, fine depth x) → fine depth (definition n d env)

private theorem fine_reference_of_founded (h : Guarded s reference definition fine)
    {least depth n : Nat} (founded : Founded s definition fine least depth) (hn : least ≤ n)
    {scope : Scope} {env : List X} (henv : ∀ x ∈ env, fine depth x) (t : TypeRef) :
    fine depth (reference n scope env t) := by
  induction t with
  | primitive p => exact h.primitive
  | named name =>
    refine h.named fun d hd => ?_
    obtain ⟨hfind, hparams⟩ := Schema.monomorphic?_eq_some.mp hd
    exact founded n hn d [] (Schema.find?_name hfind) (by simp [hparams]) (by simp)
  | generic name args ih =>
    refine h.generic fun d hd => ?_
    obtain ⟨hfind, hparams⟩ := Schema.generic?_eq_some.mp hd
    refine founded n hn d _ (Schema.find?_name hfind) (by simp [hparams]) fun x hx => ?_
    obtain ⟨t, ht, rfl⟩ := List.mem_map.mp hx
    exact ih t ht
  | sequence inner ih => exact h.weaken (h.sequence ih)
  | parameter name => exact h.parameter fun i x _ hx => henv x (List.mem_of_getElem? hx)
  | map inner ih => exact h.weaken (h.map ih)
  | tuple elements ih => exact h.weaken (h.tuple ih)
  | nullable inner ih => exact h.nullable ih

/-- The parameters of a scope are bound so that each whose expansion ends within `steps` is fine;
`args` are the references they stand for in the expansion. -/
private def Bound (s : Schema) (fine : Nat → X → Prop) (target : String) (depth steps : Nat)
    (scope : Scope) (env : List X) (args : List TypeRef) : Prop :=
  ∀ name i x, scope.index? name = some i → env[i]? = some x → ∀ fewer ≤ steps,
    s.expandsTo target fewer (args[i]?.getD (.parameter name)) = false → fine depth x

private theorem fine_reference_of_expands (h : Guarded s reference definition fine)
    {target : String} {least depth : Nat} (founded : Founded s definition fine least depth)
    (steps : Nat) : ∀ (t : TypeRef) (n : Nat) (scope : Scope) (env : List X) (args : List TypeRef),
      (∀ x ∈ env, fine depth x) → Bound s fine target (depth + 1) steps scope env args →
      s.expandsTo target steps (t.substitute scope.params args) = false →
      least + 1 + steps ≤ n → fine (depth + 1) (reference n scope env t) := by
  induction steps using Nat.strongRecOn with
  | ind steps ih =>
    -- A definition at the head: an object is taken apart, and an alias is one step.
    have applied : ∀ (d : Definition) (name : String) (n : Nat) (env : List X)
        (args : List TypeRef) (t : TypeRef), s.find? name = some d →
        env.length = d.params.length → (∀ x ∈ env, fine depth x) →
        t.core.target? = some (name, args) →
        (∀ fewer < steps, Bound s fine target (depth + 1) fewer (Scope.of d) env args) →
        s.expandsTo target steps t = false → least + 1 + steps ≤ n →
        fine (depth + 1) (definition n d env) := by
      intro d name n env args t hfind hlength henv htarget hbound hends hn
      obtain ⟨m, rfl⟩ : ∃ m, n = m + 1 := ⟨n - 1, by omega⟩
      by_cases halias : ∃ a, d = .alias a
      · obtain ⟨a, rfl⟩ := halias
        obtain ⟨fewer, rfl, hrest⟩ :=
          Schema.expandsTo_step htarget (Schema.alias?_of_find? hfind) hends
        exact h.target (Schema.find?_name hfind) hlength
          (ih fewer (by omega) a.target m (Scope.of (.alias a)) env args henv
            (hbound fewer (by omega)) hrest (by omega))
      · exact h.body (Schema.find?_name hfind) hlength (fun a ha => halias ⟨a, ha⟩) fun t _ =>
          fine_reference_of_founded h founded (by omega) henv t
    intro t n scope env args henv hbound hends hn
    induction t with
    | primitive p => exact h.primitive
    | named name =>
      refine h.named fun d hd => ?_
      obtain ⟨hfind, hparams⟩ := Schema.monomorphic?_eq_some.mp hd
      refine applied d name n [] [] _ hfind (by simp [hparams]) (by simp) rfl ?_ hends hn
      intro fewer _ p i x hi hx
      simp at hx
    | generic name inner _ =>
      refine h.generic fun d hd => ?_
      obtain ⟨hfind, hparams⟩ := Schema.generic?_eq_some.mp hd
      refine applied d name n _ _ _ hfind (by simp [hparams]) ?_ rfl ?_ hends hn
      · intro x hx
        obtain ⟨t, _, rfl⟩ := List.mem_map.mp hx
        exact fine_reference_of_founded h founded (by omega) henv t
      · intro fewer hfewer p i x _ hx few hfew hends
        obtain ⟨t, ht, rfl⟩ : ∃ t, inner[i]? = some t ∧ reference n scope env t = x := by
          simpa using hx
        have harg : (TypeRef.substituteAll scope.params args inner)[i]?.getD (.parameter p)
            = t.substitute scope.params args := by
          simp [TypeRef.substituteAll_eq_map, ht]
        rw [harg] at hends
        exact ih few (by omega) t n scope env args henv
          (fun q j y hj hy few' hfew' => hbound q j y hj hy few' (by omega)) hends (by omega)
    | sequence inner _ =>
      exact h.sequence (fine_reference_of_founded h founded (by omega) henv inner)
    | parameter name =>
      refine h.parameter fun i x hi hx => ?_
      rw [TypeRef.substitute_parameter, hi, Option.bind_some] at hends
      exact hbound name i x hi hx steps (Nat.le_refl steps) hends
    | map inner _ => exact h.map (fine_reference_of_founded h founded (by omega) henv inner)
    | tuple elements _ =>
      exact h.tuple fun t _ => fine_reference_of_founded h founded (by omega) henv t
    | nullable inner ih =>
      rw [TypeRef.substitute, Schema.expandsTo_nullable] at hends
      exact h.nullable (ih hends)

/-- Unfolding as many definitions at each depth as aliases can be followed and one more makes every
definition fine. -/
theorem fine_definition (h : Guarded s reference definition fine)
    (acyclic : ∀ name a, s.find? name = some (.alias a) → s.isCyclic a = false) (depth : Nat) :
    ∀ (n : Nat) (d : Definition) (env : List X), (expansionLimit + 2) * depth ≤ n →
      s.find? d.name = some d → env.length = d.params.length → (∀ x ∈ env, fine depth x) →
      fine depth (definition n d env) := by
  induction depth with
  | zero => exact fun n d env _ _ _ _ => h.zero
  | succ depth ih =>
    intro n d env hn hfind hlength henv
    have founded : Founded s definition fine ((expansionLimit + 2) * depth) depth :=
      fun n hn d env hfind hlength henv => ih n d env hn hfind hlength henv
    have hweak : ∀ x ∈ env, fine depth x := fun x hx => h.weaken (henv x hx)
    rw [Nat.mul_succ] at hn
    have hlimit : expansionLimit + 2 = 66 := rfl
    obtain ⟨m, rfl⟩ : ∃ m, n = m + 1 := ⟨n - 1, by omega⟩
    by_cases halias : ∃ a, d = .alias a
    · obtain ⟨a, rfl⟩ := halias
      -- The parameters of the alias stand for nothing: each of them ends its expansion and is fine.
      have hends : s.expandsTo a.name expansionLimit
          (a.target.substitute (Scope.of (.alias a)).params []) = false := by
        rw [TypeRef.substitute_nil]
        exact acyclic _ a hfind
      exact h.target hfind hlength (fine_reference_of_expands h founded expansionLimit a.target m
        (Scope.of (.alias a)) env [] hweak
        (fun name i x _ hx _ _ _ => henv x (List.mem_of_getElem? hx)) hends (by omega))
    · exact h.body hfind hlength (fun a ha => halias ⟨a, ha⟩) fun t _ =>
        fine_reference_of_founded h founded (by omega) hweak t

/-- So is every reference in a scope whose parameters are bound finely. -/
theorem fine_reference (h : Guarded s reference definition fine)
    (acyclic : ∀ name a, s.find? name = some (.alias a) → s.isCyclic a = false) {depth n : Nat}
    (hn : (expansionLimit + 2) * depth ≤ n) {scope : Scope} {env : List X}
    (henv : ∀ x ∈ env, fine depth x) (t : TypeRef) : fine depth (reference n scope env t) :=
  fine_reference_of_founded h (fun n hn d env hfind hlength henv =>
    fine_definition h acyclic depth n d env hn hfind hlength henv) hn henv t

end Guarded

end SchemaGuard
