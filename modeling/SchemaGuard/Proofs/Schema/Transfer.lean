import SchemaGuard.Proofs.Resolution.Legal
import SchemaGuard.Proofs.Schema.Conformance

/-!
Conformance carried over from one schema and policy to another. Conformance asks of a schema only
what references mean, so a value keeps its type wherever the references that are met mean the same,
or definitions that are looser: with fewer required fields, more variants or more members.
-/

set_option autoImplicit false
set_option relaxedAutoImplicit false

namespace SchemaGuard

private theorem Definition.references_instantiate (args : List TypeRef) (d : Definition) :
    (d.instantiate args).references = d.references.map (TypeRef.substitute d.params args) := by
  have unchanged : ∀ ts : List TypeRef, ts.map (TypeRef.substitute [] args) = ts := fun ts => by
    rw [List.map_congr_left fun t _ => t.substitute_no_params args, List.map_id']
  cases d with
  | struct d => simp [instantiate, references, fieldLists, params, Field.substitute]
  | union d => exact (unchanged _).symm
  | enum d => exact (unchanged _).symm
  | «alias» d => rfl

/-- The second field is the first one, or that field no longer required. -/
structure Field.Loosens (f f' : Field) : Prop where
  name : f'.name = f.name
  type : f'.type = f.type
  required : f'.required → f.required

theorem Field.Loosens.refl (f : Field) : f.Loosens f := ⟨rfl, rfl, id⟩

private theorem Field.Loosens.substitute {f f' : Field} (h : f.Loosens f') (params : List String)
    (args : List TypeRef) : (f.substitute params args).Loosens (f'.substitute params args) :=
  ⟨h.name, congrArg (TypeRef.substitute params args) h.type, h.required⟩

/-- The second fields are the first ones, some of them no longer required. -/
structure Field.AllLoosen (fields fields' : List Field) : Prop where
  kept : ∀ f ∈ fields, ∃ f' ∈ fields', f.Loosens f'
  known : ∀ f' ∈ fields', ∃ f ∈ fields, f.Loosens f'

theorem Field.AllLoosen.refl (fields : List Field) : Field.AllLoosen fields fields :=
  ⟨fun f hf => ⟨f, hf, .refl f⟩, fun f hf => ⟨f, hf, .refl f⟩⟩

private theorem Field.AllLoosen.substitute {fields fields' : List Field}
    (h : Field.AllLoosen fields fields') (params : List String) (args : List TypeRef) :
    Field.AllLoosen (fields.map (Field.substitute params args))
      (fields'.map (Field.substitute params args)) where
  kept := List.forall_mem_map.mpr fun f hf =>
    have ⟨_, hf', hloosens⟩ := h.kept f hf
    ⟨_, List.mem_map_of_mem hf', hloosens.substitute params args⟩
  known := List.forall_mem_map.mpr fun f' hf' =>
    have ⟨_, hf, hloosens⟩ := h.known f' hf'
    ⟨_, List.mem_map_of_mem hf, hloosens.substitute params args⟩

/-- The second variant has the tag of the first one, and its fields are as loose or looser. -/
structure Variant.Loosens (v v' : Variant) : Prop where
  tag : v'.tag = v.tag
  fields : Field.AllLoosen v.fields v'.fields

theorem Variant.Loosens.refl (v : Variant) : v.Loosens v := ⟨rfl, .refl v.fields⟩

/-- The second definition is the first one, or that with fewer required fields, more variants or
more members. -/
inductive Definition.Loosens : Definition → Definition → Prop
  | struct {name : String} {params : List String} {fields fields' : List Field} :
    Field.AllLoosen fields fields' →
    Definition.Loosens (.struct ⟨name, params, fields⟩) (.struct ⟨name, params, fields'⟩)
  | union {name : String} {variants variants' : List Variant} :
    (∀ v ∈ variants, ∃ v' ∈ variants', v.Loosens v') →
    Definition.Loosens (.union ⟨name, variants⟩) (.union ⟨name, variants'⟩)
  | enum {name : String} {members members' : List String} : members ⊆ members' →
    Definition.Loosens (.enum ⟨name, members⟩) (.enum ⟨name, members'⟩)
  | alias {a : Alias} : Definition.Loosens (.alias a) (.alias a)

namespace Definition.Loosens

variable {d d' : Definition}

theorem refl : ∀ d : Definition, d.Loosens d
  | .struct d => .struct (.refl d.fields)
  | .union _ => .union fun v hv => ⟨v, hv, .refl v⟩
  | .enum d => .enum (List.Subset.refl d.members)
  | .alias _ => .alias

theorem name_eq (h : d.Loosens d') : d'.name = d.name := by
  cases h <;> rfl

theorem params_eq (h : d.Loosens d') : d'.params = d.params := by
  cases h <;> rfl

theorem instantiate (h : d.Loosens d') (args : List TypeRef) :
    (d.instantiate args).Loosens (d'.instantiate args) := by
  cases h with
  | struct h => exact .struct (h.substitute _ args)
  | union h => exact .union h
  | enum h => exact .enum h
  | «alias» => exact .alias

end Definition.Loosens

/-- References with the property `P` mean in `s'` what they mean in `s` or something looser, and so
do all references that are met from them. -/
structure Schema.Carries (s s' : Schema) (P : TypeRef → Prop) : Prop where
  sequence : ∀ {inner}, P (.sequence inner) → P inner
  map : ∀ {inner}, P (.map inner) → P inner
  tuple : ∀ {elements}, P (.tuple elements) → ∀ t ∈ elements, P t
  nullable : ∀ {inner}, P (.nullable inner) → P inner
  meaning : ∀ {t d}, P t → s.meaning? t = some d →
    (∃ d', s'.meaning? t = some d' ∧ d.Loosens d') ∧ ∀ u ∈ d.references, P u

section Carry

variable {s s' : Schema} {P : TypeRef → Prop} {shape shape' : ShapePolicy}

mutual
/-- A value keeps its type in a schema that gives the same meanings, and under a policy that asks
for no more. -/
theorem Conforms.carry (carries : s.Carries s' P) (hshape : shape' = .closed → shape = .closed)
    {t : TypeRef} {v : Json} : Conforms s shape t v → P t → Conforms s' shape' t v
  | .boolean, _ => .boolean
  | .number, _ => .number
  | .string, _ => .string
  | .bytes hitems, _ => .bytes hitems
  | .sequence hitems, ht =>
      .sequence fun x hx => (hitems x hx).carry carries hshape (carries.sequence ht)
  | .map hmembers, ht =>
      .map fun m hm => (hmembers m hm).carry carries hshape (carries.map ht)
  | .tuple hlength hitems, ht => .tuple hlength fun p hp =>
      (hitems p hp).carry carries hshape (carries.tuple ht p.1 (List.of_mem_zip hp).1)
  | .null, _ => .null
  | .nullable hv, ht => .nullable (hv.carry carries hshape (carries.nullable ht))
  | .defined hd hv, ht =>
      have ⟨⟨_, hd', hloosens⟩, hreferences⟩ := carries.meaning ht hd
      .defined hd' (hv.carry carries hshape hloosens hreferences)

private theorem Describes.carry (carries : s.Carries s' P)
    (hshape : shape' = .closed → shape = .closed)
    {d d' : Definition} {v : Json} : Describes s shape d v → d.Loosens d' →
    (∀ t ∈ d.references, P t) → Describes s' shape' d' v
  | .struct hmeets, .struct hfields, hd =>
      .struct (hmeets.carry carries hshape hfields (Definition.forall_references_struct.mp hd))
  | .union hclosed hvariant htag hpayload hmeets, .union hvariants, hd =>
      have ⟨_, hvariant', hloosens⟩ := hvariants _ hvariant
      .union (fun h => hclosed (hshape h)) hvariant' (hloosens.tag.symm ▸ htag) hpayload
        (hmeets.carry carries hshape hloosens.fields
          (Definition.forall_references_union.mp hd _ hvariant))
  | .enum hmember, .enum hmembers, _ => .enum (hmembers hmember)
  | .alias hv, .alias, hd => .alias (hv.carry carries hshape (hd _ (List.mem_singleton.mpr rfl)))

private theorem Meets.carry (carries : s.Carries s' P) (hshape : shape' = .closed → shape = .closed)
    {fields fields' : List Field} {members : List (String × Json)} :
    Meets s shape fields members → Field.AllLoosen fields fields' → (∀ f ∈ fields, P f.type) →
    Meets s' shape' fields' members
  | .intro present required closed, h, hfields => .intro
      (fun f' hf' v hv =>
        have ⟨f, hf, hloosens⟩ := h.known f' hf'
        hloosens.type.symm ▸
          (present f hf v (hloosens.name ▸ hv)).carry carries hshape (hfields f hf))
      (fun f' hf' hrequired =>
        have ⟨f, hf, hloosens⟩ := h.known f' hf'
        hloosens.name.symm ▸ required f hf (hloosens.required hrequired))
      fun hclosed m hm =>
        have ⟨f, hf, hname⟩ := closed (hshape hclosed) m hm
        have ⟨f', hf', hloosens⟩ := h.kept f hf
        ⟨f', hf', hloosens.name.trans hname⟩
end

end Carry

namespace Schema

variable {s s' : Schema}

private theorem find?_of_subset (w : s.WellFormed) (w' : s'.WellFormed) (h : s.types ⊆ s'.types)
    {name : String} {d : Definition} (hfind : s.find? name = some d) : s'.find? name = some d := by
  obtain ⟨hd, hname⟩ := (find?_eq_some_iff w.types_nodup).mp hfind
  exact (find?_eq_some_iff w'.types_nodup).mpr ⟨h hd, hname⟩

private theorem generic?_of_subset (w : s.WellFormed) (w' : s'.WellFormed) (h : s.types ⊆ s'.types)
    {name : String} {args : List TypeRef} {d : Definition}
    (hd : s.generic? name args = some d) : s'.generic? name args = some d := by
  obtain ⟨hfind, hlength⟩ := generic?_eq_some.mp hd
  exact generic?_eq_some.mpr ⟨find?_of_subset w w' h hfind, hlength⟩

theorem carries_of_subset (w : s.WellFormed) (w' : s'.WellFormed) (h : s.types ⊆ s'.types) :
    s.Carries s' fun _ => True where
  sequence _ := trivial
  map _ := trivial
  tuple _ _ _ := trivial
  nullable _ := trivial
  meaning _ hd := by
    obtain ⟨name, args, applied, htarget, happlied, rfl⟩ := meaning?_eq_some.mp hd
    have hmeaning := meaning?_eq_some.mpr
      ⟨name, args, applied, htarget, generic?_of_subset w w' h happlied, rfl⟩
    exact ⟨⟨_, hmeaning, .refl _⟩, fun _ _ => trivial⟩

theorem carries_legal_of_subset (w : s.WellFormed) (w' : s'.WellFormed)
    (h : s.types ⊆ s'.types) : s'.Carries s (TypeRef.IsLegal s []) where
  sequence := TypeRef.IsLegal.sequence
  map := TypeRef.IsLegal.map
  tuple := TypeRef.IsLegal.tuple
  nullable := TypeRef.IsLegal.nullable
  meaning ht hd := by
    obtain ⟨name, args, applied, htarget, happlied, rfl⟩ := meaning?_eq_some.mp hd
    obtain ⟨hname, hargs⟩ := ht.target htarget
    obtain ⟨known, hknown⟩ := hname.generic? w
    obtain rfl : known = applied :=
      Option.some.inj ((generic?_of_subset w w' h hknown).symm.trans happlied)
    refine ⟨⟨_, meaning?_eq_some.mpr ⟨name, args, known, htarget, hknown, rfl⟩, .refl _⟩, ?_⟩
    obtain ⟨hfind, hlength⟩ := generic?_eq_some.mp hknown
    rw [Definition.references_instantiate]
    exact List.forall_mem_map.mpr fun u hu =>
      TypeRef.IsLegal.substitute hlength hargs (w.references known (mem_of_find? hfind) u hu)

end Schema

end SchemaGuard
