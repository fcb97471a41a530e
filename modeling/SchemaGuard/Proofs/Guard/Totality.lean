import SchemaGuard.Proofs.Guard.Calls
import SchemaGuard.Proofs.Guard.Conformance

/-!
Guards always answer. A checker is led along beside the validator that says what it should answer,
over the guarded constructs: on every value, its calls come to an end and the answer is the
validator's.
-/

set_option autoImplicit false
set_option relaxedAutoImplicit false

namespace SchemaGuard.Guards

open Checker Call

variable (g : Guards)

/-- A checker ends with the answers of a validator on values nested less deep than `depth`. -/
private def EndsWith (g : Guards) (depth : Nat) (pair : Checker × Validator) : Prop :=
  ∀ v : Json, v.depth < depth → Ends g.schema g.shape (.check pair.1 v) (pair.2 v)

private def suppliedPair (g : Guards) (scope : Scope) (env : List (Checker × Validator))
    (t : TypeRef) : Checker × Validator :=
  (supplied g.schema scope (env.map Prod.fst) t, g.reference scope (env.map Prod.snd) t)

private def calledPair (g : Guards) (d : Definition) (env : List (Checker × Validator)) :
    Checker × Validator :=
  (.applied d.name (env.map Prod.fst), g.applied d (env.map Prod.snd))

private theorem guarded_endsWith :
    Guarded g.schema (fun _ => suppliedPair g) (fun _ => calledPair g) (EndsWith g) where
  zero := fun _ hv => absurd hv (Nat.not_lt_zero _)
  weaken h := fun v hv => h v (Nat.lt_succ_of_lt hv)
  primitive := fun v _ => ends_primitive _
  parameter {n scope env name depth} h v hv := by
    simp only [suppliedPair, supplied_parameter, reference_parameter]
    cases hi : scope.index? name with
    | none => exact ends_never
    | some i =>
      cases hx : env[i]? with
      | none => simpa [hx] using ends_never
      | some x => simpa [hx] using h i x hi hx v hv
  named {n scope env name depth} h v hv := by
    simp only [suppliedPair, supplied_named, reference_named]
    cases hd : g.schema.monomorphic? name with
    | none => exact ends_never
    | some d => exact h d hd v hv
  generic {n scope env name args depth} h v hv := by
    simp only [suppliedPair, supplied_generic, reference_generic]
    cases hd : g.schema.generic? name args with
    | none => exact ends_never
    | some d =>
      have hends := h d hd v hv
      simp only [calledPair, List.map_map] at hends
      exact hends
  sequence {n scope env inner depth} h v hv := by
    refine ends_structural_iff.mpr ?_
    simp only [suppliedPair, reference_sequence]
    cases v with
    | array items =>
      refine ends_sequence fun x hx => ends_reference_of_supplied (h x ?_)
      have := Json.depth_lt_of_mem_items hx
      omega
    | _ => exact .intro (fun _ => false) fun _ hmade => nomatch hmade
  map {n scope env inner depth} h v hv := by
    refine ends_structural_iff.mpr ?_
    simp only [suppliedPair, reference_map]
    cases v with
    | object members =>
      refine ends_map fun m hm => ends_reference_of_supplied (h m.2 ?_)
      have := Json.depth_lt_of_mem_members hm
      omega
    | _ => exact .intro (fun _ => false) fun _ hmade => nomatch hmade
  tuple {n scope env elements depth} h v hv := by
    refine ends_structural_iff.mpr ?_
    simp only [suppliedPair, reference_tuple]
    cases v with
    | array items =>
      refine ends_tuple fun p hp =>
        ends_reference_of_supplied (h p.1 (List.of_mem_zip hp).1 p.2 ?_)
      have := Json.depth_lt_of_mem_items (List.of_mem_zip hp).2
      omega
    | _ => exact .intro (fun _ => false) fun _ hmade => nomatch hmade
  nullable {n scope env inner depth} h v hv := by
    refine ends_structural_iff.mpr ?_
    simp only [suppliedPair, reference_nullable]
    exact ends_nullable (ends_reference_of_supplied (h v hv))
  body {n d env depth} hfind hlength hd h v hv := by
    simp only [calledPair]
    rw [ends_applied_iff hfind, g.applied_eq _ hfind (by simpa using hlength)]
    refine ends_definition fun t x hx => ends_reference_of_supplied (h t hx.mem_references x ?_)
    have := hx.depth_lt hd
    omega
  -- An alias hands the whole value on, so only the expansion of the reference gets shorter.
  target {n a env depth} hfind hlength h v hv := by
    have hfind' : g.schema.find? (Definition.alias a).name = some (.alias a) := hfind
    simp only [calledPair]
    rw [ends_applied_iff hfind', g.applied_eq _ hfind' (by simpa [Definition.params] using hlength)]
    refine ends_definition fun t x hx => ?_
    cases hx
    exact ends_reference_of_supplied (h v hv)

/-- The checker of a reference ends with the answers of its validator, whatever functions from
outside stand for the parameters. -/
theorem ends_supplied_given (scope : Scope) (ws : List Validator) (t : TypeRef) (v : Json) :
    Ends g.schema g.shape (.check (supplied g.schema scope (ws.map .given) t) v)
      (g.reference scope ws t v) := by
  have hends : EndsWith g (v.depth + 1)
      (suppliedPair g scope (ws.map fun w => (.given w, w)) t) := by
    refine g.guarded_endsWith.fine_reference g.acyclic (Nat.le_refl _) (fun pair hpair => ?_) t
    obtain ⟨w, _, rfl⟩ := List.mem_map.mp hpair
    exact fun x _ => ends_given w
  have h := hends v (Nat.lt_succ_self v.depth)
  simp only [suppliedPair, List.map_map, Function.comp_def, List.map_id'] at h
  exact h

private theorem ends_supplied (t : TypeRef) (v : Json) :
    Ends g.schema g.shape (.check (supplied g.schema Scope.empty [] t) v)
      (g.reference Scope.empty [] t v) :=
  g.ends_supplied_given Scope.empty [] t v

private theorem ends_applied_given {d : Definition} (hfind : g.schema.find? d.name = some d)
    {ws : List Validator} (hlength : ws.length = d.params.length) (v : Json) :
    Ends g.schema g.shape (.check (.applied d.name (ws.map .given)) v) (g.applied d ws v) := by
  have hends : EndsWith g (v.depth + 1) (calledPair g d (ws.map fun w => (.given w, w))) := by
    refine g.guarded_endsWith.fine_definition g.acyclic _ _ d _ (Nat.le_refl _) hfind
      (by simpa using hlength) fun pair hpair => ?_
    obtain ⟨w, _, rfl⟩ := List.mem_map.mp hpair
    exact fun x _ => ends_given w
  have h := hends v (Nat.lt_succ_self v.depth)
  simp only [calledPair, List.map_map, Function.comp_def, List.map_id'] at h
  exact h

/-- The validator of a closed reference, and a generic definition applied to checkers that always
answer, come to an end on every value: no chain of calls goes on forever, and the answer is the
validator's. -/
theorem calls_end :
    (∀ t, g.resolved.checkUse t = .ok () → ∃ w, g.validatorFor t = .ok w ∧ ∀ v,
      (∀ chain : Nat → Call, chain 0 = .check (supplied g.schema Scope.empty [] t) v →
        ∃ i, ¬ Makes g.schema (chain i) (chain (i + 1))) ∧
      Ends g.schema g.shape (.check (supplied g.schema Scope.empty [] t) v) (w v)) ∧
    ∀ d ws, g.schema.find? d.name = some d → d.isGeneric → ws.length = d.params.length →
      ∃ w, g.instantiate d.name ws = .ok w ∧ ∀ v,
        (∀ chain : Nat → Call, chain 0 = .check (.applied d.name (ws.map .given)) v →
          ∃ i, ¬ Makes g.schema (chain i) (chain (i + 1))) ∧
        Ends g.schema g.shape (.check (.applied d.name (ws.map .given)) v) (w v) := by
  constructor
  · intro t ht
    refine ⟨g.reference Scope.empty [] t, g.validatorFor_eq_ok_iff.mpr ⟨ht, rfl⟩, fun v => ?_⟩
    have hends := g.ends_supplied t v
    exact ⟨fun chain hstart => hends.chain_breaks chain hstart, hends⟩
  · intro d ws hfind hgeneric hlength
    refine ⟨g.applied d ws,
      g.instantiate_eq_ok_iff.mpr ⟨d, hfind, hgeneric, hlength, rfl⟩, fun v => ?_⟩
    have hends := g.ends_applied_given hfind hlength v
    exact ⟨fun chain hstart => hends.chain_breaks chain hstart, hends⟩

def nest : Definition :=
  .struct
    { name := "Nest"
      params := ["T"]
      fields := [
        ⟨"value", .parameter "T", true⟩,
        ⟨"rest", .generic "Nest" [.sequence (.parameter "T")], false⟩] }

def nestSchema : Schema where
  types := [
    nest,
    .alias ⟨"Same", ["T"], .parameter "T"⟩,
    .alias ⟨"Twice", ["T"], .nullable (.generic "Same" [.generic "Same" [.parameter "T"]])⟩]

def nests : Guards := ⟨⟨nestSchema, by decide⟩, .closed⟩

theorem calls_end_nests :
    (∃ w, nests.validatorFor (.generic "Twice" [.generic "Nest" [.primitive .number]]) = .ok w ∧
      ∀ v, Ends nestSchema .closed (.check (supplied nestSchema Scope.empty []
        (.generic "Twice" [.generic "Nest" [.primitive .number]])) v) (w v)) ∧
    ∃ w, nests.instantiate "Nest" [fun _ => true] = .ok w ∧
      ∀ v, Ends nestSchema .closed (.check (.applied "Nest" [.given fun _ => true]) v) (w v) := by
  constructor
  · obtain ⟨w, hw, h⟩ := nests.calls_end.1
      (.generic "Twice" [.generic "Nest" [.primitive .number]]) (by decide)
    exact ⟨w, hw, fun v => (h v).2⟩
  · obtain ⟨w, hw, h⟩ := nests.calls_end.2 nest [fun _ => true] (by decide) (by decide) (by decide)
    exact ⟨w, hw, fun v => (h v).2⟩

end SchemaGuard.Guards
