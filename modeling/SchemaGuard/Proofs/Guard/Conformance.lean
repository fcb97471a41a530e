import SchemaGuard.Proofs.Guard.Unfolding
import SchemaGuard.Proofs.Schema.Conformance

/-!
Guards decide conformance. A guard carries validators for the parameters where conformance puts
references in their place; the two are led along together over the guarded constructs, a validator
beside the closed reference that it decides.
-/

set_option autoImplicit false
set_option relaxedAutoImplicit false

namespace SchemaGuard

variable {s : Schema} {shape : ShapePolicy}

private theorem Primitive.accepts_iff {p : Primitive} {v : Json} :
    p.accepts v = true ↔ Conforms s shape (.primitive p) v := by
  cases p with
  | boolean => cases v <;> simp [accepts, Conforms.boolean_iff]
  | number => cases v <;> simp [accepts, Conforms.number_iff]
  | string => cases v <;> simp [accepts, Conforms.string_iff]
  | bytes =>
    rw [Conforms.bytes_iff]
    cases v with
    | array items =>
      simp only [accepts, List.all_eq_true, Json.array.injEq, exists_eq_left']
      refine forall₂_congr fun x _ => ?_
      cases x with
      | number n => simp [Number.isByte_iff]
      | _ => simp
    | _ => simp [accepts]

private theorem allAccept_iff {check : TypeRef → Validator} {params : List String}
    {args : List TypeRef} {fields : List Field} {members : List (String × Json)}
    (h : ∀ f ∈ fields, ∀ v, members.lookup f.name = some v →
      (check f.type v = true ↔ Conforms s shape (f.type.substitute params args) v)) :
    Field.allAccept shape check fields members = true ↔
      Meets s shape (fields.map (Field.substitute params args)) members := by
  simp only [Field.allAccept, Bool.and_eq_true, List.all_eq_true]
  constructor
  · rintro ⟨hclosed, hfields⟩
    refine .intro ?_ ?_ ?_
    · intro f' hf' v hv
      obtain ⟨f, hf, rfl⟩ := List.mem_map.mp hf'
      have hfield := hfields f hf
      have hv' : members.lookup f.name = some v := hv
      rw [hv'] at hfield
      exact (h f hf v hv').mp hfield
    · intro f' hf' hrequired
      obtain ⟨f, hf, rfl⟩ := List.mem_map.mp hf'
      have hfield := hfields f hf
      cases hv : members.lookup f.name with
      | some v => exact ⟨v, hv⟩
      | none =>
        have hreq : f.required = true := hrequired
        simp [hv, hreq] at hfield
    · rintro rfl m hm
      simp only [bne_self_eq_false, Bool.false_or, List.all_eq_true, List.any_eq_true,
        beq_iff_eq] at hclosed
      obtain ⟨f, hf, hname⟩ := hclosed m hm
      exact ⟨_, List.mem_map_of_mem hf, hname⟩
  · rintro ⟨hpresent, hrequired, hclosed⟩
    constructor
    · cases shape with
      | opened => rfl
      | closed =>
        simp only [bne_self_eq_false, Bool.false_or, List.all_eq_true, List.any_eq_true, beq_iff_eq]
        intro m hm
        obtain ⟨f', hf', hname⟩ := hclosed rfl m hm
        obtain ⟨f, hf, rfl⟩ := List.mem_map.mp hf'
        exact ⟨f, hf, hname⟩
    · intro f hf
      cases hv : members.lookup f.name with
      | some v => exact (h f hf v hv).mpr (hpresent _ (List.mem_map_of_mem hf) v hv)
      | none =>
        cases hreq : f.required with
        | false => rfl
        | true =>
          obtain ⟨v, hsome⟩ := hrequired _ (List.mem_map_of_mem hf) hreq
          exact absurd (hv.symm.trans hsome) (by simp)

private theorem closed_iff {members : List (String × Json)} :
    (shape != .closed || members.all fun m => m.1 == tagKey || m.1 == payloadKey) = true ↔
      (shape = .closed → ∀ m ∈ members, m.1 = tagKey ∨ m.1 = payloadKey) := by
  cases shape <;> simp

private theorem accepts_iff (w : s.WellFormed) {check : TypeRef → Validator} {d : Definition}
    (hmem : d ∈ s.types) (hd : ∀ a, d ≠ .alias a) {args : List TypeRef} {v : Json}
    (h : ∀ t ∈ d.references, ∀ x : Json, x.depth < v.depth →
      (check t x = true ↔ Conforms s shape (t.substitute d.params args) x)) :
    d.accepts shape check v = true ↔ Describes s shape (d.instantiate args) v := by
  cases d with
  | struct d =>
    rw [Definition.instantiate, describes_struct_iff]
    cases v with
    | object members =>
      simp only [Definition.accepts, Json.object.injEq, exists_eq_left']
      refine allAccept_iff fun f hf x hx => h f.type ?_ x (Json.depth_lt_of_lookup hx)
      simpa [Definition.references, Definition.fieldLists] using ⟨f, hf, rfl⟩
    | _ => simp [Definition.accepts]
  | union d =>
    rw [Definition.instantiate, describes_union_iff]
    cases v with
    | object members =>
      simp only [Definition.accepts, Union.accepts, Json.object.injEq, exists_eq_left',
        Bool.and_eq_true, closed_iff]
      refine and_congr_right fun _ => ?_
      have hfields : ∀ variant ∈ d.variants, ∀ payload,
          members.lookup payloadKey = some (.object payload) →
          (Field.allAccept shape check variant.fields payload = true ↔
            Meets s shape variant.fields payload) := by
        intro variant hvariant payload hpayload
        have hmeets : Field.allAccept shape check variant.fields payload = true ↔
            Meets s shape (variant.fields.map (Field.substitute [] args)) payload := by
          refine allAccept_iff fun f hf x hx => h f.type ?_ x
            (Nat.lt_trans (Json.depth_lt_of_lookup hx) (Json.depth_lt_of_lookup hpayload))
          simp only [Definition.references, Definition.fieldLists, List.mem_map, List.mem_flatten]
          exact ⟨f, ⟨variant.fields, ⟨variant, hvariant, rfl⟩, hf⟩, rfl⟩
        rwa [List.map_congr_left fun f _ => f.substitute_no_params args, List.map_id'] at hmeets
      have hfind := fun tag variant => Schema.find?_key_eq_some_iff (w.tags_nodup d hmem) (k := tag)
        (x := variant)
      constructor
      · intro haccepts
        split at haccepts
        · next tag htag =>
          split at haccepts
          · next variant payload hlookup hpayload =>
            obtain ⟨hvariant, rfl⟩ := (hfind tag variant).mp hlookup
            exact ⟨variant, hvariant, htag, payload, hpayload,
              (hfields variant hvariant payload hpayload).mp haccepts⟩
          · cases haccepts
        · cases haccepts
      · rintro ⟨variant, hvariant, htag, payload, hpayload, hmeets⟩
        have hlookup : d.variant? variant.tag = some variant :=
          (hfind variant.tag variant).mpr ⟨hvariant, rfl⟩
        simp only [htag, hlookup, hpayload]
        exact (hfields variant hvariant payload hpayload).mpr hmeets
    | _ => simp [Definition.accepts, Union.accepts]
  | enum d =>
    rw [Definition.instantiate, describes_enum_iff]
    cases v with
    | string member => simp [Definition.accepts]
    | _ => simp [Definition.accepts]
  | «alias» a => exact absurd rfl (hd a)

namespace Guards

variable (g : Guards)

/-- A validator decides a closed reference on values nested less deep than `depth`. -/
private def Decides (g : Guards) (depth : Nat) (pair : Validator × TypeRef) : Prop :=
  ∀ v : Json, v.depth < depth → (pair.1 v = true ↔ Conforms g.schema g.shape pair.2 v)

private def closedPair (g : Guards) (scope : Scope) (env : List (Validator × TypeRef))
    (t : TypeRef) : Validator × TypeRef :=
  (g.reference scope (env.map Prod.fst) t, t.substitute scope.params (env.map Prod.snd))

private def appliedPair (g : Guards) (d : Definition) (env : List (Validator × TypeRef)) :
    Validator × TypeRef :=
  (g.applied d (env.map Prod.fst), .generic d.name (env.map Prod.snd))

private theorem guarded_decides :
    Guarded g.schema (fun _ => closedPair g) (fun _ => appliedPair g) (Decides g) where
  zero := fun _ hv => absurd hv (Nat.not_lt_zero _)
  weaken h := fun v hv => h v (Nat.lt_succ_of_lt hv)
  primitive := fun v _ => Primitive.accepts_iff
  parameter {n scope env name depth} h v hv := by
    simp only [closedPair, reference_parameter, TypeRef.substitute_parameter]
    cases hi : scope.index? name with
    | none => simp [Conforms.not_parameter]
    | some i =>
      cases hx : env[i]? with
      | none => simp [hx, Conforms.not_parameter]
      | some x => simpa [hx] using h i x hi hx v hv
  named {n scope env name depth} h v hv := by
    simp only [closedPair, reference_named, TypeRef.substitute]
    rw [Conforms.named_iff rfl, Schema.generic?_nil]
    cases hd : g.schema.monomorphic? name with
    | none => simp
    | some d =>
      have hdecides := h d hd v hv
      simp only [appliedPair, List.map_nil] at hdecides
      rw [Conforms.named_iff rfl, Schema.generic?_nil,
        Schema.name_of_find? (Schema.monomorphic?_eq_some.mp hd).1, hd] at hdecides
      exact hdecides
  generic {n scope env name args depth} h v hv := by
    simp only [closedPair, reference_generic, TypeRef.substitute, TypeRef.substituteAll_eq_map]
    cases hd : g.schema.generic? name args with
    | none =>
      rw [Conforms.named_iff rfl, Schema.generic?_map, hd]
      simp
    | some d =>
      have hdecides := h d hd v hv
      simp only [appliedPair, List.map_map, Schema.name_of_find? (Schema.generic?_eq_some.mp hd).1]
        at hdecides
      exact hdecides
  sequence {n scope env inner depth} h v hv := by
    simp only [closedPair, reference_sequence, TypeRef.substitute, Conforms.sequence_iff]
    cases v with
    | array items =>
      simp only [List.all_eq_true, Json.array.injEq, exists_eq_left']
      refine forall₂_congr fun x hx => h x ?_
      have := Json.depth_lt_of_mem_items hx
      omega
    | _ => simp
  map {n scope env inner depth} h v hv := by
    simp only [closedPair, reference_map, TypeRef.substitute, Conforms.map_iff]
    cases v with
    | object members =>
      simp only [List.all_eq_true, Json.object.injEq, exists_eq_left']
      refine forall₂_congr fun m hm => h m.2 ?_
      have := Json.depth_lt_of_mem_members hm
      omega
    | _ => simp
  tuple {n scope env elements depth} h v hv := by
    simp only [closedPair, reference_tuple, TypeRef.substitute, TypeRef.substituteAll_eq_map,
      Conforms.tuple_iff]
    cases v with
    | array items =>
      simp only [Bool.and_eq_true, beq_iff_eq, List.all_eq_true, Json.array.injEq, exists_eq_left',
        List.length_map, List.zip_map_left, List.forall_mem_map]
      refine and_congr_right fun _ => forall₂_congr fun p hp => h p.1 (List.of_mem_zip hp).1 p.2 ?_
      have := Json.depth_lt_of_mem_items (List.of_mem_zip hp).2
      omega
    | _ => simp
  nullable {n scope env inner depth} h v hv := by
    simp only [closedPair, reference_nullable, TypeRef.substitute, Conforms.nullable_iff]
    cases v with
    | null => simp
    | _ =>
      simp only [reduceCtorEq, false_or]
      exact h _ hv
  -- The arguments are validators in the environment on one side, put into the body on the other.
  body {n d env depth} hfind hlength hd h v hv := by
    have hgeneric : g.schema.generic? d.name (env.map Prod.snd) = some d :=
      Schema.generic?_eq_some.mpr ⟨hfind, by simpa using hlength.symm⟩
    simp only [appliedPair]
    rw [g.applied_eq _ hfind (by simpa using hlength), Conforms.named_iff rfl, hgeneric]
    simp only [Option.some.injEq, exists_eq_left']
    exact accepts_iff g.wellFormed (Schema.mem_of_find? hfind) hd fun t ht x hx =>
      h t ht x (by omega)
  target {n a env depth} hfind hlength h v hv := by
    have hgeneric : g.schema.generic? a.name (env.map Prod.snd) = some (.alias a) :=
      Schema.generic?_eq_some.mpr ⟨hfind, by simpa [Definition.params] using hlength.symm⟩
    simp only [appliedPair, Definition.name]
    rw [g.applied_alias _ hfind (by simpa using hlength), Conforms.named_iff rfl, hgeneric]
    simp only [Option.some.injEq, exists_eq_left', Definition.instantiate, describes_alias_iff]
    exact h v hv

/-- Where validators decide closed references, a reference in their scope is answered as conformance
says of it with the closed references put in. -/
theorem reference_iff_conforms_substitute (scope : Scope) (env : List (Validator × TypeRef))
    (henv : ∀ p ∈ env, ∀ v, p.1 v = true ↔ Conforms g.schema g.shape p.2 v) (t : TypeRef)
    (v : Json) : g.reference scope (env.map Prod.fst) t v = true ↔
      Conforms g.schema g.shape (t.substitute scope.params (env.map Prod.snd)) v := by
  have hdecides : Decides g (v.depth + 1) (closedPair g scope env t) :=
    g.guarded_decides.fine_reference g.acyclic (Nat.le_refl _) (fun p hp v _ => henv p hp v) t
  exact hdecides v (Nat.lt_succ_self v.depth)

/-- Guards answer what conformance says. -/
theorem reference_iff_conforms (t : TypeRef) (v : Json) :
    g.reference Scope.empty [] t v = true ↔ Conforms g.schema g.shape t v := by
  have hiff := g.reference_iff_conforms_substitute Scope.empty [] (by simp) t v
  rwa [List.map_nil, List.map_nil, TypeRef.substitute_nil] at hiff

/-- The validator of a closed reference decides conformance. -/
theorem validatorFor_decides {t : TypeRef} (ht : g.resolved.checkUse t = .ok ()) :
    ∃ w, g.validatorFor t = .ok w ∧
      ∀ v, w v = true ↔ Conforms g.resolved.schema g.shape t v := by
  refine ⟨g.reference Scope.empty [] t, (g.validatorFor_eq_ok_iff).mpr ⟨ht, rfl⟩, fun v => ?_⟩
  have hdecides : Decides g (v.depth + 1) (closedPair g Scope.empty [] t) :=
    g.guarded_decides.fine_reference g.acyclic (Nat.le_refl _) (by simp) t
  have hiff := hdecides v (Nat.lt_succ_self v.depth)
  rw [closedPair, List.map_nil, List.map_nil, TypeRef.substitute_nil] at hiff
  exact hiff

end Guards

def treeSchema : Schema where
  types := [
    .struct
      { name := "Tree"
        params := ["T"]
        fields := [
          ⟨"label", .parameter "T", true⟩,
          ⟨"children", .sequence (.generic "Tree" [.parameter "T"]), false⟩] },
    .alias ⟨"Forest", ["T"], .nullable (.sequence (.generic "Tree" [.parameter "T"]))⟩]

def trees : ResolvedSchema := ⟨treeSchema, by decide⟩

theorem validatorFor_decides_numberForest :
    ∃ w, Guards.validatorFor ⟨trees, .closed⟩ (.generic "Forest" [.primitive .number]) = .ok w ∧
      ∀ v, w v = true ↔
        Conforms treeSchema .closed (.generic "Forest" [.primitive .number]) v :=
  Guards.validatorFor_decides ⟨trees, .closed⟩ (by decide)

end SchemaGuard
