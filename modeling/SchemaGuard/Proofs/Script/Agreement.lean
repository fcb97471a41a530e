import SchemaGuard.Proofs.Script.Bodies

/-!
What a function stands for is what it answers: on every value it gives the answer of the validator
of the reference that it stands for. Values are taken apart as the guards in the process take them
apart, so this is shown over the same guarded constructs.
-/

set_option autoImplicit false
set_option relaxedAutoImplicit false

namespace SchemaGuard.Script

open Script.Module (apply)

variable {P : Program} {T : Typing} {σ : Store} {f : Value}

private theorem Program.reference_eq_validator (P : Program) {scope : Scope} {us : List TypeRef}
    (hlength : us.length = scope.params.length) {t : TypeRef}
    (h : t.IsLegal P.guards.schema scope.params) :
    P.guards.reference scope (us.map P.validator) t
      = P.validator (t.substitute scope.params us) := by
  induction t with
  | primitive p =>
    funext v
    rfl
  | named name => rw [TypeRef.substitute, validator, Guards.reference_named, Guards.reference_named]
  | generic name args ih =>
    have hargs : args.map (P.guards.reference scope (us.map P.validator))
        = (args.map (TypeRef.substitute scope.params us)).map P.validator := by
      rw [List.map_map]
      exact List.map_congr_left fun t ht => ih t ht (h.generic.2 t ht)
    rw [Guards.reference_generic, hargs, TypeRef.substitute, TypeRef.substituteAll_eq_map,
      validator, Guards.reference_generic, Schema.generic?_map]
    rfl
  | sequence inner ih =>
    funext v
    rw [Guards.reference_sequence, ih h.sequence, TypeRef.substitute]
    exact (Guards.reference_sequence _ _ _ _ v).symm
  | parameter name =>
    have hname : name ∈ scope.params := h.parameter
    obtain ⟨i, hi⟩ := Option.isSome_iff_exists.mp (List.isSome_idxOf?.mpr hname)
    have hlt : i < us.length := by
      rw [hlength]
      exact (List.idxOf?_eq_some_iff.mp hi).1
    have hindex : scope.index? name = some i := hi
    rw [Guards.reference_parameter, TypeRef.substitute_parameter, hindex]
    simp [hlt]
  | map inner ih =>
    funext v
    rw [Guards.reference_map, ih h.map, TypeRef.substitute]
    exact (Guards.reference_map _ _ _ _ v).symm
  | tuple elements ih =>
    funext v
    rw [Guards.reference_tuple, TypeRef.substitute, TypeRef.substituteAll_eq_map, validator,
      Guards.reference_tuple, List.length_map]
    cases v with
    | array items =>
      simp only [List.zip_map_left, List.all_map]
      congr 1
      exact all_congr_of_mem fun p hp =>
        congrFun (ih p.1 (List.of_mem_zip hp).1 (h.tuple p.1 (List.of_mem_zip hp).1)) p.2
    | _ => rfl
  | nullable inner ih =>
    funext v
    rw [Guards.reference_nullable, ih h.nullable, TypeRef.substitute]
    exact (Guards.reference_nullable _ _ _ _ v).symm

private theorem Program.validator_generic (P : Program) (name : String) (us : List TypeRef) :
    P.validator (.generic name us) = ((P.guards.schema.generic? name us).map fun d =>
      P.guards.applied d (us.map P.validator)).getD fun _ => false :=
  P.guards.reference_generic ..

theorem Program.validator_applied (P : Program) {d : Definition} {us : List TypeRef}
    (hfind : P.guards.schema.find? d.name = some d) (hlength : us.length = d.params.length) :
    P.validator (.generic d.name us) = P.guards.applied d (us.map P.validator) := by
  rw [validator_generic, Schema.generic?_eq_some.mpr ⟨hfind, hlength.symm⟩]
  rfl

theorem Program.validator_named (P : Program) (name : String) :
    P.validator (.named name) = P.validator (.generic name []) := by
  rw [validator_generic, Schema.generic?_nil]
  exact P.guards.reference_named ..

private theorem Stands.generic {name : String} {us : List TypeRef}
    (h : Stands P T f (.generic name us)) :
    ∃ d, P.guards.schema.generic? name us = some d ∧
      (us = [] ∧ f = .function (P.options.guardName d.name) ∨
        ∃ lazies checkers env body, f = .closure env subjectName (.block body) ∧
          AllStand P T checkers us ∧ Frame P T (Scope.of d) us lazies checkers env ∧
          IsBody (P.context (Scope.of d)) P.constants lazies d body) := by
  cases h with
  | @monomorphic _ _ d htarget hd =>
    obtain ⟨rfl, rfl⟩ : name = _ ∧ us = [] := by simpa [TypeRef.target?] using htarget
    exact ⟨d, Schema.generic?_nil ▸ hd, .inl ⟨rfl, rfl⟩⟩
  | @applied d _ _ _ _ _ hfind hall hframe hbody =>
    have hlength : d.params.length = us.length := hframe.arity.symm.trans hall.length_eq
    exact ⟨d, Schema.generic?_eq_some.mpr ⟨hfind, hlength⟩,
      .inr ⟨_, _, _, _, rfl, hall, hframe, hbody⟩⟩
  | arrow hstructural _ _ _ _ _ hclosed =>
    cases TypeRef.isStructural_of_substitute hstructural hclosed

private theorem Stands.of_named {name : String} (h : Stands P T f (.named name)) :
    Stands P T f (.generic name []) := by
  cases h with
  | monomorphic htarget hd =>
    obtain rfl : name = _ := by simpa [TypeRef.target?] using htarget
    exact .monomorphic rfl hd
  | arrow hstructural _ _ _ _ _ hclosed =>
    cases TypeRef.isStructural_of_substitute hstructural hclosed

private theorem validator_definition {d : Definition} {us : List TypeRef}
    (hfind : P.guards.schema.find? d.name = some d) (hlength : us.length = d.params.length)
    (v : Json) : P.validator (.generic d.name us) v
      = d.accepts P.guards.shape (fun t => P.validator (t.substitute d.params us)) v := by
  have hd := Schema.mem_of_find? hfind
  have hscope : us.length = (Scope.of d).params.length := hlength
  rw [P.validator_applied hfind hlength, P.guards.applied_eq _ hfind (by simpa using hlength)]
  refine Definition.accepts_congr fun t x hx => ?_
  have hlegal := P.guards.wellFormed.references d hd t hx.mem_references
  exact congrFun (P.reference_eq_validator hscope hlegal) x

private theorem appliesAt_definition {d : Definition} {us : List TypeRef} {v : Json}
    (hfind : P.guards.schema.find? d.name = some d) (hlength : us.length = d.params.length)
    (h : ∀ t x, d.Inspects v t x →
      HoldsAt P x (t.substitute d.params us) (P.validator (t.substitute d.params us))) :
    AppliesAt P v (.generic d.name us) (P.validator (.generic d.name us)) := by
  intro T σ f hs hf
  rw [validator_definition hfind hlength]
  have hgeneric : P.guards.schema.generic? d.name us = some d :=
    Schema.generic?_eq_some.mpr ⟨hfind, hlength.symm⟩
  obtain ⟨d', hd', hfunction⟩ := hf.generic
  obtain rfl : d = d' := Option.some.inj (hgeneric.symm.trans hd')
  rcases hfunction with ⟨rfl, rfl⟩ | ⟨lazies, checkers, env, body, rfl, hall, hframe, hbody⟩
  · have hparams : d.params = [] := List.eq_nil_of_length_eq_zero hlength.symm
    obtain ⟨item, hitem, his⟩ := P.exists_item (Schema.mem_of_find? hfind)
    cases his with
    | guard _ hbody =>
      let s : Scene P T := ⟨Scope.of d, [], P.constants, [], [], P.code.env,
        Frame.base P T hparams, .nil, fun _ h => h⟩
      obtain ⟨σ', T', hrun, hgrows, hs'⟩ := s.returns_body hbody hs h
      exact ⟨σ', T', apply_guard (P.item?_functions hitem) hrun, hgrows, hs'⟩
    | factory hfactory _ _ _ _ => simp [Definition.isGeneric, hparams] at hfactory
  · let s : Scene P T := ⟨Scope.of d, us, P.constants, lazies, checkers, env, hframe, hall,
      fun _ h => h⟩
    obtain ⟨σ', T', hrun, hgrows, hs'⟩ := s.returns_body hbody hs h
    exact ⟨σ', T', apply_block hrun, hgrows, hs'⟩

/-- Functions and conditions answer for the reference as its validator does, on values nested less
deep than `depth`. -/
private def Decided (P : Program) (depth : Nat) (t : TypeRef) : Prop :=
  ∀ v : Json, v.depth < depth → AppliesAt P v t (P.validator t) ∧ HoldsAt P v t (P.validator t)

private theorem decided_of_applies {depth : Nat} {t : TypeRef}
    (hstructural : t.isStructural = false)
    (h : ∀ v : Json, v.depth < depth → AppliesAt P v t (P.validator t)) : Decided P depth t := by
  refine fun v hv => ⟨h v hv, holdsAt_of_appliesAt hstructural (h v hv) ?_⟩
  rintro p rfl
  rfl

private theorem decided_of_inPlace {depth : Nat} {t : TypeRef}
    (hstructural : t.isStructural = true)
    (h : ∀ v : Json, v.depth < depth → HoldsInPlace P v t (P.validator t)) : Decided P depth t :=
  fun v hv => ⟨appliesAt_of_inPlace hstructural (h v hv), holdsAt_of_inPlace hstructural (h v hv)⟩

private theorem decided_parameter (depth : Nat) (x : String) : Decided P depth (.parameter x) := by
  refine decided_of_applies rfl fun v _ T σ f hs hf => ?_
  cases hf with
  | given hanswers => exact .of_eq (hanswers v σ) hs
  | monomorphic htarget _ => cases htarget
  | arrow hstructural _ _ _ _ _ hclosed =>
    cases TypeRef.isStructural_of_substitute hstructural hclosed

private theorem guarded_decided (P : Program) :
    Guarded P.guards.schema (fun _ scope us t => t.substitute scope.params us)
      (fun _ d us => .generic d.name us) (Decided P) where
  zero := fun _ hv => absurd hv (Nat.not_lt_zero _)
  weaken h := fun v hv => h v (Nat.lt_succ_of_lt hv)
  primitive {_ _ _ p _} := by
    refine decided_of_applies rfl fun v _ T σ f hs hf => ?_
    cases hf with
    | primitive => exact answers_primitive p v hs
    | monomorphic htarget _ => cases htarget
    | arrow hstructural _ _ _ _ _ hclosed =>
      cases TypeRef.isStructural_of_substitute hstructural hclosed
  parameter {_ scope us name depth} h := by
    rw [TypeRef.substitute_parameter]
    cases hi : scope.index? name with
    | none => exact decided_parameter depth name
    | some i =>
      cases hu : us[i]? with
      | none => simpa [hu] using decided_parameter depth name
      | some u => simpa [hu] using h i u hi hu
  named {_ _ _ name depth} h := by
    rw [TypeRef.substitute]
    refine decided_of_applies rfl fun v hv T σ f hs hf => ?_
    obtain ⟨d, hd, _⟩ := hf.of_named.generic
    rw [Schema.generic?_nil] at hd
    have hname := Schema.name_of_find? (Schema.monomorphic?_eq_some.mp hd).1
    have happlies := (h d hd v hv).1
    rw [hname] at happlies
    rw [P.validator_named]
    exact happlies T σ f hs hf.of_named
  generic {_ scope us name args depth} h := by
    rw [TypeRef.substitute, TypeRef.substituteAll_eq_map]
    refine decided_of_applies rfl fun v hv T σ f hs hf => ?_
    obtain ⟨d, hd, _⟩ := hf.generic
    rw [Schema.generic?_map] at hd
    have hname := Schema.name_of_find? (Schema.generic?_eq_some.mp hd).1
    have happlies := (h d hd v hv).1
    rw [hname] at happlies
    exact happlies T σ f hs hf
  sequence {_ scope us inner depth} h := by
    refine decided_of_inPlace rfl fun v hv => ?_
    refine holdsInPlace_sequence (P.guards.reference_sequence _ _ _ v) ?_
    rintro items rfl x hx
    have := Json.depth_lt_of_mem_items hx
    exact (h x (by omega)).2
  map {_ scope us inner depth} h := by
    refine decided_of_inPlace rfl fun v hv => ?_
    refine holdsInPlace_map (P.guards.reference_map _ _ _ v) ?_
    rintro members rfl m hm
    have := Json.depth_lt_of_mem_members hm
    exact (h m.2 (by omega)).2
  tuple {_ scope us elements depth} h := by
    -- Each element goes with its validator, as the checks of a tuple are one list.
    let pairs := elements.map fun t =>
      (t.substitute scope.params us, P.validator (t.substitute scope.params us))
    have hpairs : TypeRef.substituteAll scope.params us elements = pairs.map Prod.fst := by
      rw [TypeRef.substituteAll_eq_map, List.map_map]
      rfl
    rw [TypeRef.substitute, hpairs]
    refine decided_of_inPlace rfl fun v hv => holdsInPlace_tuple ?_ ?_
    · rw [Program.validator, Guards.reference_tuple]
      cases v with
      | array items =>
        simp only [pairs, List.zip_map_left, List.all_map, List.length_map]
        rfl
      | _ => rfl
    · rintro items rfl q hq
      have := Json.depth_lt_of_mem_items (List.of_mem_zip hq).2
      obtain ⟨t, ht, heq⟩ := List.mem_map.mp (List.of_mem_zip hq).1
      rw [← heq]
      exact (h t ht q.2 (by omega)).2
  nullable {_ scope us inner depth} h := by
    refine decided_of_inPlace rfl fun v hv => ?_
    exact holdsInPlace_nullable (P.guards.reference_nullable _ _ _ v) (h v hv).2
  body {_ d us depth} hfind hlength hd h := by
    refine decided_of_applies rfl fun v hv => appliesAt_definition hfind hlength fun t x hx => ?_
    have := hx.depth_lt hd
    exact (h t hx.mem_references x (by omega)).2
  target {_ a us depth} hfind hlength h := by
    refine decided_of_applies rfl fun v hv => appliesAt_definition hfind hlength fun t x hx => ?_
    cases hx
    exact (h v hv).2

/-- A function that stands for a reference answers as the validator of the reference. -/
theorem Stands.answers {t : TypeRef} (h : Stands P T f t) (hs : Ready P T σ) (v : Json) :
    Answers P T (apply P.code f [.json v] σ) (P.validator t v) := by
  have hdecided : Decided P (v.depth + 1) (t.substitute Scope.empty.params []) :=
    (guarded_decided P).fine_reference P.guards.acyclic (Nat.le_refl _) (by simp) t
  rw [TypeRef.substitute_nil] at hdecided
  exact (hdecided v (Nat.lt_succ_self v.depth)).1 T σ f hs h

end SchemaGuard.Script
