import SchemaGuard.Proofs.Guard.Unfolding
import SchemaGuard.Proofs.Schema.Transfer

/-!
Undeclared keys. A type makes some of the objects in a value structs, unions or payloads of
variants, and these declare keys; the keys of a map are free. Conformance under the closed policy is
conformance under the open one without undeclared keys.
-/

set_option autoImplicit false
set_option relaxedAutoImplicit false

namespace SchemaGuard

def Field.declares (fields : List Field) (key : String) : Bool := fields.any fun f => f.name == key

theorem Field.declares_iff {fields : List Field} {key : String} :
    Field.declares fields key = true ↔ ∃ f ∈ fields, f.name = key := by
  simp [Field.declares]

def Union.declares (key : String) : Bool := key == tagKey || key == payloadKey

/-- The object that a definition describes, or the payload in it, has a key that is not declared. -/
inductive Definition.Strays : Definition → Json → Prop
  | struct {d : Struct} {members : List (String × Json)} {key : String} :
    key ∈ members.map Prod.fst → Field.declares d.fields key = false →
    Definition.Strays (.struct d) (.object members)
  | union {d : Union} {members : List (String × Json)} {key : String} :
    key ∈ members.map Prod.fst → Union.declares key = false →
    Definition.Strays (.union d) (.object members)
  | payload {d : Union} {members payload : List (String × Json)} {tag key : String}
    {variant : Variant} :
    members.lookup tagKey = some (.string tag) → d.variant? tag = some variant →
    members.lookup payloadKey = some (.object payload) → key ∈ payload.map Prod.fst →
    Field.declares variant.fields key = false → Definition.Strays (.union d) (.object members)

namespace Schema

/-- To check `v` against a reference is, among others, to check `x` against a second one. -/
inductive Visits (s : Schema) : TypeRef → Json → TypeRef → Json → Prop
  | item {inner : TypeRef} {items : List Json} {x : Json} :
    x ∈ items → Visits s (.sequence inner) (.array items) inner x
  | value {inner : TypeRef} {members : List (String × Json)} {m : String × Json} :
    m ∈ members → Visits s (.map inner) (.object members) inner m.2
  | element {elements : List TypeRef} {items : List Json} {p : TypeRef × Json} :
    p ∈ elements.zip items → Visits s (.tuple elements) (.array items) p.1 p.2
  | inner {inner : TypeRef} {v : Json} : v ≠ .null → Visits s (.nullable inner) v inner v
  | body {t u : TypeRef} {d : Definition} {v x : Json} :
    s.meaning? t = some d → d.Inspects v u x → Visits s t v u x

/-- Where a reference makes an object in the value a struct, a union or a payload, there is a key
that is not declared. -/
inductive Strays (s : Schema) : TypeRef → Json → Prop
  | here {t : TypeRef} {d : Definition} {v : Json} :
    s.meaning? t = some d → d.Strays v → Strays s t v
  | visited {t u : TypeRef} {v x : Json} : s.Visits t v u x → Strays s u x → Strays s t v

end Schema

/-- No list of fields has a name twice, nor has a union a tag twice. -/
structure Definition.Distinct (d : Definition) : Prop where
  fields : ∀ fields ∈ d.fieldLists, (fields.map Field.name).Nodup
  tags : ∀ u, d = .union u → (u.variants.map Variant.tag).Nodup

variable {s : Schema}

theorem Schema.WellFormed.distinct (w : s.WellFormed) {t : TypeRef} {d : Definition}
    (hd : s.meaning? t = some d) : d.Distinct := by
  obtain ⟨name, args, applied, -, happlied, rfl⟩ := meaning?_eq_some.mp hd
  have hmem : applied ∈ s.types := mem_of_find? (generic?_eq_some.mp happlied).1
  have hfields := w.fields_nodup applied hmem
  cases applied with
  | struct d =>
    refine ⟨?_, fun u h => by cases h⟩
    simpa [Definition.instantiate, Definition.fieldLists, Field.substitute, Function.comp_def]
      using hfields
  | union d =>
    refine ⟨hfields, fun u h => ?_⟩
    obtain rfl := Definition.union.inj h
    exact w.tags_nodup d hmem
  | enum d => exact ⟨hfields, fun u h => by cases h⟩
  | «alias» d =>
    constructor
    · intro fields h
      exact absurd h List.not_mem_nil
    · intro u h
      cases h

theorem Definition.Distinct.variant?_eq_some {d : Union} (h : (Definition.union d).Distinct)
    {tag : String} {variant : Variant} :
    d.variant? tag = some variant ↔ variant ∈ d.variants ∧ variant.tag = tag :=
  Schema.find?_key_eq_some_iff (h.tags d rfl)

theorem Definition.Distinct.variant_eq {d : Union} (h : (Definition.union d).Distinct)
    {a b : Variant} (ha : a ∈ d.variants) (hb : b ∈ d.variants) (htag : a.tag = b.tag) : a = b :=
  List.inj_on_of_nodup_map (h.tags d rfl) ha hb htag

variable {shape : ShapePolicy}

theorem Conforms.describes {t : TypeRef} {d : Definition} {v : Json}
    (h : Conforms s shape t v) (hd : s.meaning? t = some d) : Describes s shape d v := by
  obtain ⟨name, args, applied, htarget, happlied, rfl⟩ := Schema.meaning?_eq_some.mp hd
  obtain ⟨other, hother, hv⟩ := (Conforms.named_iff htarget).mp h
  exact Option.some.inj (happlied.symm.trans hother) ▸ hv

theorem Describes.payload {d : Union} (hdistinct : (Definition.union d).Distinct)
    {members payload : List (String × Json)} {tag : String} {variant : Variant}
    (h : Describes s shape (.union d) (.object members))
    (htag : members.lookup tagKey = some (.string tag)) (hvariant : d.variant? tag = some variant)
    (hpayload : members.lookup payloadKey = some (.object payload)) :
    Meets s shape variant.fields payload := by
  obtain ⟨_, hmembers, -, other, hother, htag', _, hpayload', hmeets⟩ := describes_union_iff.mp h
  obtain rfl := Json.object.inj hmembers
  obtain rfl := Json.string.inj (Option.some.inj (htag.symm.trans htag'))
  obtain rfl := Json.object.inj (Option.some.inj (hpayload.symm.trans hpayload'))
  obtain rfl := Option.some.inj (hvariant.symm.trans (hdistinct.variant?_eq_some.mpr ⟨hother, rfl⟩))
  exact hmeets

private theorem Describes.inspected {d : Definition} (hdistinct : d.Distinct) {v x : Json}
    {u : TypeRef} (h : Describes s shape d v) (hx : d.Inspects v u x) : Conforms s shape u x := by
  cases hx with
  | field hf hlookup =>
    obtain ⟨members, hmembers, present, -, -⟩ := describes_struct_iff.mp h
    obtain rfl := Json.object.inj hmembers
    exact present _ hf x hlookup
  | payload htag hvariant hpayload hf hlookup =>
    obtain ⟨present, -, -⟩ := h.payload hdistinct htag hvariant hpayload
    exact present _ hf x hlookup
  | target => exact describes_alias_iff.mp h

private theorem Conforms.visited (w : s.WellFormed) {t u : TypeRef} {v x : Json}
    (h : Conforms s shape t v) (hx : s.Visits t v u x) : Conforms s shape u x := by
  cases hx with
  | item hx =>
    obtain ⟨items, hitems, hall⟩ := Conforms.sequence_iff.mp h
    obtain rfl := Json.array.inj hitems
    exact hall x hx
  | value hm =>
    obtain ⟨members, hmembers, hall⟩ := Conforms.map_iff.mp h
    obtain rfl := Json.object.inj hmembers
    exact hall _ hm
  | element hp =>
    obtain ⟨items, hitems, -, hall⟩ := Conforms.tuple_iff.mp h
    obtain rfl := Json.array.inj hitems
    exact hall _ hp
  | inner hv => exact (Conforms.nullable_iff.mp h).resolve_left hv
  | body hd hx => exact (h.describes hd).inspected (w.distinct hd) hx

private theorem Describes.not_strays {d : Definition} (hdistinct : d.Distinct) {v : Json}
    (h : Describes s .closed d v) : ¬ d.Strays v := by
  intro hstrays
  cases hstrays with
  | struct hkey hundeclared =>
    obtain ⟨members, hmembers, -, -, closed⟩ := describes_struct_iff.mp h
    obtain rfl := Json.object.inj hmembers
    obtain ⟨m, hm, rfl⟩ := List.mem_map.mp hkey
    simp [Field.declares_iff.mpr (closed rfl m hm)] at hundeclared
  | union hkey hundeclared =>
    obtain ⟨members, hmembers, hclosed, -⟩ := describes_union_iff.mp h
    obtain rfl := Json.object.inj hmembers
    obtain ⟨m, hm, rfl⟩ := List.mem_map.mp hkey
    have hdeclared : Union.declares m.1 = true := by
      simpa [Union.declares] using hclosed rfl m hm
    simp [hdeclared] at hundeclared
  | payload htag hvariant hpayload hkey hundeclared =>
    obtain ⟨-, -, closed⟩ := h.payload hdistinct htag hvariant hpayload
    obtain ⟨m, hm, rfl⟩ := List.mem_map.mp hkey
    simp [Field.declares_iff.mpr (closed rfl m hm)] at hundeclared

private theorem Conforms.not_strays (w : s.WellFormed) {t : TypeRef} {v : Json}
    (h : Conforms s .closed t v) : ¬ s.Strays t v := by
  intro hstrays
  induction hstrays with
  | here hd hstrays => exact (h.describes hd).not_strays (w.distinct hd) hstrays
  | visited hx _ ih => exact ih (h.visited w hx)

mutual
private theorem Conforms.closed (w : s.WellFormed) {t : TypeRef} {v : Json} :
    Conforms s .opened t v → ¬ s.Strays t v → Conforms s .closed t v
  | .boolean, _ => .boolean
  | .number, _ => .number
  | .string, _ => .string
  | .bytes hitems, _ => .bytes hitems
  | .sequence hitems, hclean =>
      .sequence fun x hx => (hitems x hx).closed w fun h => hclean (.visited (.item hx) h)
  | .map hmembers, hclean =>
      .map fun m hm => (hmembers m hm).closed w fun h => hclean (.visited (.value hm) h)
  | .tuple hlength hitems, hclean =>
      .tuple hlength fun p hp => (hitems p hp).closed w fun h => hclean (.visited (.element hp) h)
  | .null, _ => .null
  | .nullable (v := v) hv, hclean => by
      by_cases hnull : v = .null
      · exact hnull ▸ .null
      · exact .nullable (hv.closed w fun h => hclean (.visited (.inner hnull) h))
  | .defined hd hv, hclean =>
      .defined hd (hv.closed w (w.distinct hd) (fun h => hclean (.here hd h))
        fun _ _ hx h => hclean (.visited (.body hd hx) h))

private theorem Describes.closed (w : s.WellFormed) {d : Definition} (hdistinct : d.Distinct)
    {v : Json} :
    Describes s .opened d v → ¬ d.Strays v → (∀ u x, d.Inspects v u x → ¬ s.Strays u x) →
      Describes s .closed d v
  | .struct hmeets, hclean, hparts =>
      .struct (hmeets.closed w (fun _ hkey => by_contra fun h =>
          hclean (.struct hkey (Bool.eq_false_of_not_eq_true h)))
        fun f hf x hx => hparts _ _ (.field hf hx))
  | .union hclosed hvariant htag hpayload hmeets, hclean, hparts =>
      have hlookup := hdistinct.variant?_eq_some.mpr ⟨hvariant, rfl⟩
      .union (fun _ m hm => by
          have hdeclared : Union.declares m.1 = true := by_contra fun h =>
            hclean (.union (List.mem_map_of_mem hm) (Bool.eq_false_of_not_eq_true h))
          simpa [Union.declares] using hdeclared)
        hvariant htag hpayload
        (hmeets.closed w (fun _ hkey => by_contra fun h =>
            hclean (.payload htag hlookup hpayload hkey (Bool.eq_false_of_not_eq_true h)))
          fun f hf x hx => hparts _ _ (.payload htag hlookup hpayload hf hx))
  | .enum hmember, _, _ => .enum hmember
  | .alias hv, _, hparts => .alias (hv.closed w (hparts _ _ .target))

private theorem Meets.closed (w : s.WellFormed) {fields : List Field}
    {members : List (String × Json)} :
    Meets s .opened fields members →
      (∀ key ∈ members.map Prod.fst, Field.declares fields key = true) →
      (∀ f ∈ fields, ∀ x, members.lookup f.name = some x → ¬ s.Strays f.type x) →
      Meets s .closed fields members
  | .intro present required _, hdeclared, hparts =>
      .intro (fun f hf v hv => (present f hf v hv).closed w (hparts f hf v hv)) required
        fun _ m hm => Field.declares_iff.mp (hdeclared m.1 (List.mem_map_of_mem hm))
end

/-- The policies differ only in undeclared keys. -/
theorem conforms_closed_iff (w : s.WellFormed) {t : TypeRef} {v : Json} :
    Conforms s .closed t v ↔ Conforms s .opened t v ∧ ¬ s.Strays t v := by
  constructor
  · intro h
    have hcarries := Schema.carries_of_subset w w (List.Subset.refl s.types)
    exact ⟨h.carry hcarries (fun _ => rfl) trivial, h.not_strays w⟩
  · rintro ⟨h, hclean⟩
    exact h.closed w hclean

end SchemaGuard
