import SchemaGuard.Proofs.Guard.Totality

/-!
Generic guards treat their parameters as black boxes: they hand parts of the value to the checkers
that they were given, and use the answers only to accept. So two runs of a generic guard can be led
along side by side, each with its own checkers, and where the checkers of the second run accept all
parts of the value that those of the first accept, so does the guard.
-/

set_option autoImplicit false
set_option relaxedAutoImplicit false

namespace SchemaGuard

/-- A definition inspects only parts of the value. -/
theorem Definition.Inspects.part {d : Definition} {v x : Json} {t : TypeRef}
    (h : d.Inspects v t x) : x.Part v := by
  cases h with
  | field _ hx => exact Json.part_of_lookup hx
  | payload _ _ hpayload _ hx =>
    exact (Json.part_of_lookup hx).trans (Json.part_of_lookup hpayload)
  | target => exact .self

namespace Guards

variable (g : Guards)

/-- The second validator accepts every part of `v` nested less deep than `depth` that the first
accepts. -/
private def Refines (v : Json) (depth : Nat) (pair : Validator × Validator) : Prop :=
  ∀ x : Json, x.Part v → x.depth < depth → pair.1 x = true → pair.2 x = true

private def referenceRuns (g : Guards) (scope : Scope) (env : List (Validator × Validator))
    (t : TypeRef) : Validator × Validator :=
  (g.reference scope (env.map Prod.fst) t, g.reference scope (env.map Prod.snd) t)

private def appliedRuns (g : Guards) (d : Definition) (env : List (Validator × Validator)) :
    Validator × Validator :=
  (g.applied d (env.map Prod.fst), g.applied d (env.map Prod.snd))

private theorem guarded_refines (v : Json) :
    Guarded g.schema (fun _ => referenceRuns g) (fun _ => appliedRuns g) (Refines v) where
  zero := fun _ _ hx => absurd hx (Nat.not_lt_zero _)
  weaken h := fun x hpart hx => h x hpart (Nat.lt_succ_of_lt hx)
  primitive := fun _ _ _ haccept => haccept
  parameter {n scope env name depth} h x hpart hx := by
    simp only [referenceRuns, reference_parameter]
    cases hi : scope.index? name with
    | none => exact id
    | some i =>
      cases hpair : env[i]? with
      | none => simp [hpair]
      | some pair => simpa [hpair] using h i pair hi hpair x hpart hx
  named {n scope env name depth} h x hpart hx := by
    simp only [referenceRuns, reference_named]
    cases hd : g.schema.monomorphic? name with
    | none => exact id
    | some d => exact h d hd x hpart hx
  generic {n scope env name args depth} h x hpart hx := by
    simp only [referenceRuns, reference_generic]
    cases hd : g.schema.generic? name args with
    | none => exact id
    | some d =>
      have hrefines := h d hd x hpart hx
      simp only [appliedRuns, List.map_map] at hrefines
      exact hrefines
  sequence {n scope env inner depth} h x hpart hx := by
    simp only [referenceRuns, reference_sequence]
    cases x with
    | array items =>
      simp only [List.all_eq_true]
      refine fun haccept y hy => h y ((Json.part_of_mem_items hy).trans hpart) ?_ (haccept y hy)
      have := Json.depth_lt_of_mem_items hy
      omega
    | _ => exact id
  map {n scope env inner depth} h x hpart hx := by
    simp only [referenceRuns, reference_map]
    cases x with
    | object members =>
      simp only [List.all_eq_true]
      refine fun haccept m hm =>
        h m.2 ((Json.part_of_mem_members hm).trans hpart) ?_ (haccept m hm)
      have := Json.depth_lt_of_mem_members hm
      omega
    | _ => exact id
  tuple {n scope env elements depth} h x hpart hx := by
    simp only [referenceRuns, reference_tuple]
    cases x with
    | array items =>
      simp only [Bool.and_eq_true, List.all_eq_true]
      refine fun haccept => ⟨haccept.1, fun p hp => ?_⟩
      obtain ⟨ht, hy⟩ := List.of_mem_zip hp
      refine h p.1 ht p.2 ((Json.part_of_mem_items hy).trans hpart) ?_ (haccept.2 p hp)
      have := Json.depth_lt_of_mem_items hy
      omega
    | _ => exact id
  nullable {n scope env inner depth} h x hpart hx := by
    simp only [referenceRuns, reference_nullable]
    cases x with
    | null => exact id
    | _ => exact h _ hpart hx
  body {n d env depth} hfind hlength hd h x hpart hx := by
    simp only [appliedRuns]
    rw [g.applied_eq _ hfind (by simpa using hlength),
      g.applied_eq _ hfind (by simpa using hlength)]
    refine Definition.accepts_mono fun t y hy =>
      h t hy.mem_references y (hy.part.trans hpart) ?_
    have := hy.depth_lt hd
    omega
  target {n a env depth} hfind hlength h x hpart hx := by
    simp only [appliedRuns]
    rw [g.applied_alias _ hfind (by simpa using hlength),
      g.applied_alias _ hfind (by simpa using hlength)]
    exact h x hpart hx

private theorem applied_mono {d : Definition} (hfind : g.schema.find? d.name = some d)
    {checkers checkers' : List Validator} (hlength : checkers.length = d.params.length)
    (hlength' : checkers'.length = d.params.length) {v : Json}
    (h : ∀ p ∈ checkers.zip checkers', ∀ x : Json, x.Part v → p.1 x = true → p.2 x = true) :
    g.applied d checkers v = true → g.applied d checkers' v = true := by
  have hzip : (checkers.zip checkers').length = d.params.length := by simp [hlength, hlength']
  have hrefines : Refines v (v.depth + 1) (appliedRuns g d (checkers.zip checkers')) :=
    (g.guarded_refines v).fine_definition g.acyclic _ _ d _ (Nat.le_refl _) hfind hzip
      fun p hp x hpart _ => h p hp x hpart
  have hle : checkers.length ≤ checkers'.length := Nat.le_of_eq (hlength.trans hlength'.symm)
  have hge : checkers'.length ≤ checkers.length := Nat.le_of_eq (hlength'.trans hlength.symm)
  have haccept := hrefines v .self (Nat.lt_succ_self v.depth)
  rw [appliedRuns, List.map_fst_zip hle, List.map_snd_zip hge] at haccept
  exact haccept

/-- A generic definition applied to checkers that accept all parts of a value which other checkers
accept accepts the value if it does so applied to the others. So checkers that agree on the parts of
a value give it the same verdict. -/
theorem instantiate_parametric {name : String} {d : Definition}
    (hfind : g.schema.find? name = some d) (hgeneric : d.isGeneric)
    {checkers checkers' : List Validator} (hlength : checkers.length = d.params.length)
    (hlength' : checkers'.length = d.params.length) :
    ∃ w w', g.instantiate name checkers = .ok w ∧ g.instantiate name checkers' = .ok w' ∧
      ∀ v : Json,
        ((∀ p ∈ checkers.zip checkers', ∀ x : Json, x.Part v → p.1 x = true → p.2 x = true) →
          w v = true → w' v = true) ∧
        ((∀ p ∈ checkers.zip checkers', ∀ x : Json, x.Part v → p.1 x = p.2 x) → w v = w' v) := by
  have hfind' : g.schema.find? d.name = some d := Schema.find?_name hfind
  refine ⟨g.applied d checkers, g.applied d checkers',
    g.instantiate_eq_ok_iff.mpr ⟨d, hfind, hgeneric, hlength, rfl⟩,
    g.instantiate_eq_ok_iff.mpr ⟨d, hfind, hgeneric, hlength', rfl⟩,
    fun v => ⟨g.applied_mono hfind' hlength hlength', fun hagree => ?_⟩⟩
  rw [Bool.eq_iff_iff]
  constructor
  · exact g.applied_mono hfind' hlength hlength' fun p hp x hpart hx => hagree p hp x hpart ▸ hx
  · refine g.applied_mono hfind' hlength' hlength fun p hp x hpart hx => ?_
    have hswap : p.swap ∈ checkers.zip checkers' := by
      rw [← List.zip_swap]
      exact List.mem_map_of_mem hp
    exact (hagree p.swap hswap x hpart).trans hx

/-- The lists of a nest hold what its checker says, at every level. -/
theorem instantiate_parametric_nests :
    ∃ w w', nests.instantiate "Nest" [Primitive.bytes.accepts] = .ok w ∧
      nests.instantiate "Nest" [fun _ => true] = .ok w' ∧ ∀ v, w v = true → w' v = true := by
  have hbytes : [Primitive.bytes.accepts].length = nest.params.length := rfl
  have hall : [fun _ : Json => true].length = nest.params.length := rfl
  obtain ⟨w, w', hw, hw', h⟩ :=
    nests.instantiate_parametric (by decide : nests.schema.find? "Nest" = some nest) (by decide)
      hbytes hall
  exact ⟨w, w', hw, hw', fun v => (h v).1 (by simp)⟩

end Guards

end SchemaGuard
