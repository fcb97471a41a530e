import SchemaGuard.Options
import SchemaGuard.Resolution.Expansion
import SchemaGuard.Proofs.Number.Byte
import SchemaGuard.Proofs.Schema.References

/-!
Conformance of values to closed types, by substitution: a reference to a definition means its body
with the arguments in the place of the declared parameters. Nothing is said here about how a guard
finds out.
-/

set_option autoImplicit false
set_option relaxedAutoImplicit false

namespace SchemaGuard

def Field.substitute (params : List String) (args : List TypeRef) (f : Field) : Field :=
  { f with type := f.type.substitute params args }

theorem Field.substitute_no_params (args : List TypeRef) (f : Field) :
    f.substitute [] args = f := by
  rw [substitute, TypeRef.substitute_no_params]

/-- The definition with references in the place of its parameters; unions and enums have none. -/
def Definition.instantiate (args : List TypeRef) : Definition → Definition
  | .struct d => .struct { d with fields := d.fields.map (Field.substitute d.params args) }
  | .alias d => .alias { d with target := d.target.substitute d.params args }
  | .union d => .union d
  | .enum d => .enum d

def Schema.meaning? (s : Schema) (t : TypeRef) : Option Definition :=
  t.target?.bind fun (name, args) => (s.generic? name args).map (Definition.instantiate args)

theorem Schema.meaning?_eq_some {s : Schema} {t : TypeRef} {d : Definition} :
    s.meaning? t = some d ↔ ∃ name args applied, t.target? = some (name, args) ∧
      s.generic? name args = some applied ∧ applied.instantiate args = d := by
  simp [meaning?, Option.bind_eq_some_iff]

mutual
/-- The value has the type. -/
inductive Conforms (s : Schema) (shape : ShapePolicy) : TypeRef → Json → Prop
  | boolean {b : Bool} : Conforms s shape (.primitive .boolean) (.bool b)
  | number {n : Number} : Conforms s shape (.primitive .number) (.number n)
  | string {text : String} : Conforms s shape (.primitive .string) (.string text)
  | bytes {items : List Json} :
    (∀ x ∈ items, ∃ (n : Number) (k : Nat), x = .number n ∧ n.value = k ∧ k ≤ 255) →
    Conforms s shape (.primitive .bytes) (.array items)
  | sequence {inner : TypeRef} {items : List Json} : (∀ x ∈ items, Conforms s shape inner x) →
    Conforms s shape (.sequence inner) (.array items)
  | map {inner : TypeRef} {members : List (String × Json)} :
    (∀ m ∈ members, Conforms s shape inner m.2) → Conforms s shape (.map inner) (.object members)
  | tuple {elements : List TypeRef} {items : List Json} : elements.length = items.length →
    (∀ p ∈ elements.zip items, Conforms s shape p.1 p.2) →
    Conforms s shape (.tuple elements) (.array items)
  | null {inner : TypeRef} : Conforms s shape (.nullable inner) .null
  | nullable {inner : TypeRef} {v : Json} : Conforms s shape inner v →
    Conforms s shape (.nullable inner) v
  | defined {t : TypeRef} {d : Definition} {v : Json} : s.meaning? t = some d →
    Describes s shape d v → Conforms s shape t v

/-- A definition without open parameters describes the value. -/
inductive Describes (s : Schema) (shape : ShapePolicy) : Definition → Json → Prop
  | struct {d : Struct} {members : List (String × Json)} :
    Meets s shape d.fields members → Describes s shape (.struct d) (.object members)
  | union {d : Union} {members payload : List (String × Json)} {variant : Variant} :
    (shape = .closed → ∀ m ∈ members, m.1 = tagKey ∨ m.1 = payloadKey) →
    variant ∈ d.variants → members.lookup tagKey = some (.string variant.tag) →
    members.lookup payloadKey = some (.object payload) →
    Meets s shape variant.fields payload → Describes s shape (.union d) (.object members)
  | enum {d : Enum} {member : String} :
    member ∈ d.members → Describes s shape (.enum d) (.string member)
  | alias {d : Alias} {v : Json} : Conforms s shape d.target v → Describes s shape (.alias d) v

/-- The members of an object meet the fields: one that is there has its type, a required one is
there, and under the closed policy nothing else is. -/
inductive Meets (s : Schema) (shape : ShapePolicy) : List Field → List (String × Json) → Prop
  | intro {fields : List Field} {members : List (String × Json)}
    (present : ∀ f ∈ fields, ∀ v, members.lookup f.name = some v → Conforms s shape f.type v)
    (required : ∀ f ∈ fields, f.required → ∃ v, members.lookup f.name = some v)
    (closed : shape = .closed → ∀ m ∈ members, ∃ f ∈ fields, f.name = m.1) :
    Meets s shape fields members
end

namespace Conforms

variable {s : Schema} {shape : ShapePolicy} {v : Json}

theorem boolean_iff : Conforms s shape (.primitive .boolean) v ↔ ∃ b, v = .bool b := by
  constructor
  · intro h
    cases h with
    | boolean => exact ⟨_, rfl⟩
    | defined h _ => cases h
  · rintro ⟨b, rfl⟩
    exact .boolean

theorem number_iff : Conforms s shape (.primitive .number) v ↔ ∃ n, v = .number n := by
  constructor
  · intro h
    cases h with
    | number => exact ⟨_, rfl⟩
    | defined h _ => cases h
  · rintro ⟨n, rfl⟩
    exact .number

theorem string_iff : Conforms s shape (.primitive .string) v ↔ ∃ text, v = .string text := by
  constructor
  · intro h
    cases h with
    | string => exact ⟨_, rfl⟩
    | defined h _ => cases h
  · rintro ⟨text, rfl⟩
    exact .string

theorem bytes_iff : Conforms s shape (.primitive .bytes) v ↔
    ∃ items, v = .array items ∧
      ∀ x ∈ items, ∃ (n : Number) (k : Nat), x = .number n ∧ n.value = k ∧ k ≤ 255 := by
  constructor
  · intro h
    cases h with
    | bytes h => exact ⟨_, rfl, h⟩
    | defined h _ => cases h
  · rintro ⟨items, rfl, h⟩
    exact .bytes h

theorem sequence_iff {inner : TypeRef} : Conforms s shape (.sequence inner) v ↔
    ∃ items, v = .array items ∧ ∀ x ∈ items, Conforms s shape inner x := by
  constructor
  · intro h
    cases h with
    | sequence h => exact ⟨_, rfl, h⟩
    | defined h _ => cases h
  · rintro ⟨items, rfl, h⟩
    exact .sequence h

theorem map_iff {inner : TypeRef} : Conforms s shape (.map inner) v ↔
    ∃ members, v = .object members ∧ ∀ m ∈ members, Conforms s shape inner m.2 := by
  constructor
  · intro h
    cases h with
    | map h => exact ⟨_, rfl, h⟩
    | defined h _ => cases h
  · rintro ⟨members, rfl, h⟩
    exact .map h

theorem tuple_iff {elements : List TypeRef} : Conforms s shape (.tuple elements) v ↔
    ∃ items, v = .array items ∧ elements.length = items.length ∧
      ∀ p ∈ elements.zip items, Conforms s shape p.1 p.2 := by
  constructor
  · intro h
    cases h with
    | tuple hlength h => exact ⟨_, rfl, hlength, h⟩
    | defined h _ => cases h
  · rintro ⟨items, rfl, hlength, h⟩
    exact .tuple hlength h

theorem nullable_iff {inner : TypeRef} : Conforms s shape (.nullable inner) v ↔
    v = .null ∨ Conforms s shape inner v := by
  constructor
  · intro h
    cases h with
    | null => exact .inl rfl
    | nullable h => exact .inr h
    | defined h _ => cases h
  · rintro (rfl | h)
    · exact .null
    · exact .nullable h

theorem not_parameter {name : String} : ¬ Conforms s shape (.parameter name) v := by
  intro h
  cases h with
  | defined h _ => cases h

/-- A reference that names a type has the values that the type's definition describes. -/
theorem named_iff {t : TypeRef} {name : String} {args : List TypeRef}
    (ht : t.target? = some (name, args)) : Conforms s shape t v ↔
      ∃ d, s.generic? name args = some d ∧
        Describes s shape (d.instantiate args) v := by
  have hmeaning : s.meaning? t = (s.generic? name args).map (Definition.instantiate args) := by
    rw [Schema.meaning?, ht]
    rfl
  constructor
  · intro h
    cases h with
    | defined hd h =>
      rw [hmeaning] at hd
      obtain ⟨applied, happlied, rfl⟩ := Option.map_eq_some_iff.mp hd
      exact ⟨applied, happlied, h⟩
    | _ => cases ht
  · rintro ⟨d, hd, h⟩
    exact .defined (by rw [hmeaning, hd]; rfl) h

end Conforms

variable {s : Schema} {shape : ShapePolicy} {v : Json}

theorem describes_struct_iff {d : Struct} : Describes s shape (.struct d) v ↔
    ∃ members, v = .object members ∧ Meets s shape d.fields members := by
  constructor
  · rintro ⟨h⟩
    exact ⟨_, rfl, h⟩
  · rintro ⟨members, rfl, h⟩
    exact .struct h

theorem describes_union_iff {d : Union} : Describes s shape (.union d) v ↔
    ∃ members, v = .object members ∧
      (shape = .closed → ∀ m ∈ members, m.1 = tagKey ∨ m.1 = payloadKey) ∧
      ∃ variant ∈ d.variants, members.lookup tagKey = some (.string variant.tag) ∧
        ∃ payload, members.lookup payloadKey = some (.object payload) ∧
          Meets s shape variant.fields payload := by
  constructor
  · intro h
    cases h with
    | union hclosed hvariant htag hpayload hmeets =>
      exact ⟨_, rfl, hclosed, _, hvariant, htag, _, hpayload, hmeets⟩
  · rintro ⟨members, rfl, hclosed, variant, hvariant, htag, payload, hpayload, hmeets⟩
    exact .union hclosed hvariant htag hpayload hmeets

theorem describes_enum_iff {d : Enum} : Describes s shape (.enum d) v ↔
    ∃ member ∈ d.members, v = .string member := by
  constructor
  · rintro (_ | _ | h)
    exact ⟨_, h, rfl⟩
  · rintro ⟨member, h, rfl⟩
    exact .enum h

theorem describes_alias_iff {d : Alias} : Describes s shape (.alias d) v ↔
    Conforms s shape d.target v := by
  constructor
  · intro h
    cases h with
    | «alias» h => exact h
  · exact .alias

end SchemaGuard
