import SchemaGuard.Proofs.Json.Keys
import SchemaGuard.Proofs.Schema.Strays

/-!
Values without undeclared keys. Pruning takes from a value the keys that are not declared, wherever
the type makes an object a struct, a union or a payload, and nothing else. A value that conforms
under the open policy can be pruned, in one way if no object in it has a key twice, and conforms
under both policies then.
-/

set_option autoImplicit false
set_option relaxedAutoImplicit false

namespace SchemaGuard

mutual
/-- The second value is the first less the keys that are not declared, wherever the reference makes
an object a struct, a union or a payload, and is the same otherwise. -/
inductive Prunes (s : Schema) : TypeRef → Json → Json → Prop
  | primitive {p : Primitive} {v : Json} : Prunes s (.primitive p) v v
  | sequence {inner : TypeRef} {items items' : List Json} : items.length = items'.length →
    (∀ p ∈ items.zip items', Prunes s inner p.1 p.2) →
    Prunes s (.sequence inner) (.array items) (.array items')
  | map {inner : TypeRef} {members members' : List (String × Json)} :
    members.length = members'.length → (∀ p ∈ members.zip members', p.1.1 = p.2.1) →
    (∀ p ∈ members.zip members', Prunes s inner p.1.2 p.2.2) →
    Prunes s (.map inner) (.object members) (.object members')
  | tuple {elements : List TypeRef} {items items' : List Json} :
    elements.length = items.length → items.length = items'.length →
    (∀ p ∈ (elements.zip items).zip items', Prunes s p.1.1 p.1.2 p.2) →
    Prunes s (.tuple elements) (.array items) (.array items')
  | null {inner : TypeRef} : Prunes s (.nullable inner) .null .null
  | nullable {inner : TypeRef} {v v' : Json} : v ≠ .null → Prunes s inner v v' →
    Prunes s (.nullable inner) v v'
  | defined {t : TypeRef} {d : Definition} {v v' : Json} : s.meaning? t = some d →
    PrunesAs s d v v' → Prunes s t v v'

/-- The same for a definition without open parameters. -/
inductive PrunesAs (s : Schema) : Definition → Json → Json → Prop
  | struct {d : Struct} {members members' : List (String × Json)} :
    PrunesFields s d.fields members members' →
    PrunesAs s (.struct d) (.object members) (.object members')
  | union {d : Union} {variant : Variant}
    {members payload members' payload' : List (String × Json)} :
    variant ∈ d.variants → members.lookup tagKey = some (.string variant.tag) →
    members.lookup payloadKey = some (.object payload) →
    members'.map Prod.fst = (members.map Prod.fst).filter Union.declares →
    members'.lookup tagKey = some (.string variant.tag) →
    members'.lookup payloadKey = some (.object payload') →
    PrunesFields s variant.fields payload payload' →
    PrunesAs s (.union d) (.object members) (.object members')
  | enum {d : Enum} {v : Json} : PrunesAs s (.enum d) v v
  | alias {d : Alias} {v v' : Json} : Prunes s d.target v v' → PrunesAs s (.alias d) v v'

/-- The same for the members of an object: the declared keys stay in their order, and each looks up
the pruned value. -/
inductive PrunesFields (s : Schema) :
    List Field → List (String × Json) → List (String × Json) → Prop
  | intro {fields : List Field} {members members' : List (String × Json)}
    (keys : members'.map Prod.fst = (members.map Prod.fst).filter (Field.declares fields))
    (values : ∀ f ∈ fields, ∀ x x', members.lookup f.name = some x →
      members'.lookup f.name = some x' → Prunes s f.type x x') :
    PrunesFields s fields members members'
end

variable {s : Schema}

private theorem exists_zip {α β : Type} {R : α → β → Prop} {xs : List α}
    (h : ∀ x ∈ xs, ∃ y, R x y) :
    ∃ ys : List β, xs.length = ys.length ∧ ∀ p ∈ xs.zip ys, R p.1 p.2 := by
  induction xs with
  | nil => exact ⟨[], rfl, by simp⟩
  | cons x xs ih =>
    obtain ⟨y, hy⟩ := h x List.mem_cons_self
    obtain ⟨ys, hlength, hys⟩ := ih fun z hz => h z (List.mem_cons_of_mem _ hz)
    exact ⟨y :: ys, by simp [hlength], by simpa using ⟨hy, fun a b => hys (a, b)⟩⟩

variable {shape : ShapePolicy}

mutual
theorem Conforms.exists_pruned (w : s.WellFormed) {t : TypeRef} {v : Json} :
    Conforms s shape t v → ∃ v', Prunes s t v v'
  | .boolean => ⟨_, .primitive⟩
  | .number => ⟨_, .primitive⟩
  | .string => ⟨_, .primitive⟩
  | .bytes _ => ⟨_, .primitive⟩
  | .sequence hitems =>
      have ⟨items', hlength, hprunes⟩ := exists_zip fun x hx => (hitems x hx).exists_pruned w
      ⟨.array items', .sequence hlength hprunes⟩
  | .map hmembers =>
      have ⟨members', hlength, hprunes⟩ := exists_zip
        (R := fun m m' : String × Json => m.1 = m'.1 ∧ Prunes s _ m.2 m'.2) fun m hm =>
          have ⟨x', hx'⟩ := (hmembers m hm).exists_pruned w
          ⟨(m.1, x'), rfl, hx'⟩
      ⟨.object members', .map hlength (fun p hp => (hprunes p hp).1)
        fun p hp => (hprunes p hp).2⟩
  | .tuple hlength hitems =>
      have ⟨items', hlength', hprunes⟩ := exists_zip fun p hp => (hitems p hp).exists_pruned w
      ⟨.array items', .tuple hlength (by simpa [hlength] using hlength') hprunes⟩
  | .null => ⟨.null, .null⟩
  | .nullable (v := v) hv => by
      by_cases hnull : v = .null
      · rw [hnull]
        exact ⟨.null, .null⟩
      · obtain ⟨v', hv'⟩ := hv.exists_pruned w
        exact ⟨v', .nullable hnull hv'⟩
  | .defined hd hv =>
      have ⟨v', hv'⟩ := hv.exists_pruned w (w.distinct hd)
      ⟨v', .defined hd hv'⟩

private theorem Describes.exists_pruned (w : s.WellFormed) {d : Definition} {v : Json} :
    Describes s shape d v → d.Distinct → ∃ v', PrunesAs s d v v'
  | .struct hmeets, hdistinct =>
      have ⟨members', h⟩ :=
        hmeets.exists_pruned w (hdistinct.fields _ (List.mem_singleton.mpr rfl))
      ⟨.object members', .struct h⟩
  | @Describes.union _ _ _ _ _ variant _ hvariant htag hpayload hmeets, hdistinct =>
      have ⟨payload', h⟩ :=
        hmeets.exists_pruned w (hdistinct.fields _ (List.mem_map_of_mem hvariant))
      have declared := fun {key x} (hx : List.lookup key _ = some x) hkey =>
        List.mem_filter.mpr ⟨Json.mem_keys_of_lookup hx, hkey⟩
      let value (key : String) : Json :=
        if key = tagKey then .string variant.tag else .object payload'
      ⟨.object (Json.keyed _ value), .union hvariant htag hpayload (Json.keys_keyed _ value)
        (Json.lookup_keyed value (declared htag rfl))
        (Json.lookup_keyed value (declared hpayload rfl)) h⟩
  | .enum _, _ => ⟨_, .enum⟩
  | .alias hv, _ =>
      have ⟨v', hv'⟩ := hv.exists_pruned w
      ⟨v', .alias hv'⟩

private theorem Meets.exists_pruned (w : s.WellFormed) {fields : List Field}
    {members : List (String × Json)} : Meets s shape fields members →
      (fields.map Field.name).Nodup → ∃ members', PrunesFields s fields members members'
  | .intro present _ _, hnodup => by
      have pruned : ∀ key, ∃ x', ∀ f ∈ fields, f.name = key → ∀ x,
          members.lookup key = some x → Prunes s f.type x x' := by
        intro key
        by_cases hkey : ∃ f ∈ fields, f.name = key ∧ ∃ x, members.lookup key = some x
        · obtain ⟨f, hf, rfl, x, hx⟩ := hkey
          obtain ⟨x', hx'⟩ := (present f hf x hx).exists_pruned w
          refine ⟨x', fun f' hf' hname y hy => ?_⟩
          obtain rfl : f' = f := List.inj_on_of_nodup_map hnodup hf' hf hname
          obtain rfl := Option.some.inj (hx.symm.trans hy)
          exact hx'
        · exact ⟨.null, fun f hf hname x hx => absurd ⟨f, hf, hname, x, hx⟩ hkey⟩
      choose value hvalue using pruned
      refine ⟨Json.keyed ((members.map Prod.fst).filter (Field.declares fields)) value,
        .intro (Json.keys_keyed _ value) fun f hf x x' hx hx' => ?_⟩
      have hkey := Json.mem_keys_of_lookup hx'
      rw [Json.keys_keyed] at hkey
      obtain rfl := Option.some.inj ((Json.lookup_keyed value hkey).symm.trans hx')
      exact hvalue f.name f hf rfl x hx
end

private theorem exists_mem_zip {α β : Type} {xs : List α} {ys : List β}
    (hlength : xs.length = ys.length) {y : β} (hy : y ∈ ys) : ∃ p ∈ xs.zip ys, p.2 = y := by
  rw [← List.map_snd_zip (Nat.le_of_eq hlength.symm)] at hy
  exact List.mem_map.mp hy

private theorem exists_mem_zip_zip {α β γ : Type} {xs : List α} {ys : List β} {zs : List γ}
    (hlength : xs.length = ys.length) {q : α × γ} (hq : q ∈ xs.zip zs) :
    ∃ p ∈ (xs.zip ys).zip zs, p.1.1 = q.1 ∧ p.2 = q.2 := by
  rw [← List.map_fst_zip (Nat.le_of_eq hlength), List.zip_map_left] at hq
  obtain ⟨p, hp, rfl⟩ := List.mem_map.mp hq
  exact ⟨p, hp, rfl, rfl⟩

mutual
theorem Prunes.conforms (w : s.WellFormed) {t : TypeRef} {v v' : Json} :
    Prunes s t v v' → Conforms s .opened t v → Conforms s shape t v'
  | .primitive, h => by
      cases h with
      | boolean => exact .boolean
      | number => exact .number
      | string => exact .string
      | bytes hitems => exact .bytes hitems
      | defined hd _ => cases hd
  | .sequence hlength hprunes, h => by
      obtain ⟨_, hitems, hall⟩ := Conforms.sequence_iff.mp h
      obtain rfl := Json.array.inj hitems
      refine .sequence fun x' hx' => ?_
      obtain ⟨p, hp, rfl⟩ := exists_mem_zip hlength hx'
      exact (hprunes p hp).conforms w (hall p.1 (List.of_mem_zip hp).1)
  | .map hlength _ hprunes, h => by
      obtain ⟨_, hmembers, hall⟩ := Conforms.map_iff.mp h
      obtain rfl := Json.object.inj hmembers
      refine .map fun m' hm' => ?_
      obtain ⟨p, hp, rfl⟩ := exists_mem_zip hlength hm'
      exact (hprunes p hp).conforms w (hall p.1 (List.of_mem_zip hp).1)
  | .tuple hlength hlength' hprunes, h => by
      obtain ⟨_, hitems, -, hall⟩ := Conforms.tuple_iff.mp h
      obtain rfl := Json.array.inj hitems
      refine .tuple (hlength.trans hlength') fun q hq => ?_
      obtain ⟨p, hp, hfst, hsnd⟩ := exists_mem_zip_zip hlength hq
      rw [← hfst, ← hsnd]
      exact (hprunes p hp).conforms w (hall p.1 (List.of_mem_zip hp).1)
  | .null, _ => .null
  | .nullable hv hprunes, h =>
      .nullable (hprunes.conforms w ((Conforms.nullable_iff.mp h).resolve_left hv))
  | .defined hd hprunes, h =>
      .defined hd (hprunes.describes w (w.distinct hd) (h.describes hd))

private theorem PrunesAs.describes (w : s.WellFormed) {d : Definition} (hdistinct : d.Distinct)
    {v v' : Json} : PrunesAs s d v v' → Describes s .opened d v → Describes s shape d v'
  | .struct hprunes, h => by
      obtain ⟨_, hmembers, hmeets⟩ := describes_struct_iff.mp h
      obtain rfl := Json.object.inj hmembers
      exact .struct (hprunes.meets w hmeets)
  | .union hvariant htag hpayload hkeys htag' hpayload' hprunes, h => by
      have hmeets := h.payload hdistinct htag
        (hdistinct.variant?_eq_some.mpr ⟨hvariant, rfl⟩) hpayload
      refine .union (fun _ m hm => ?_) hvariant htag' hpayload' (hprunes.meets w hmeets)
      have hdeclared := (List.mem_filter.mp (hkeys ▸ List.mem_map_of_mem hm)).2
      simpa [Union.declares] using hdeclared
  | .enum, .enum hmember => .enum hmember
  | .alias hprunes, .alias h => .alias (hprunes.conforms w h)

private theorem PrunesFields.meets (w : s.WellFormed) {fields : List Field}
    {members members' : List (String × Json)} : PrunesFields s fields members members' →
      Meets s .opened fields members → Meets s shape fields members'
  | .intro hkeys hvalues, .intro present required _ => by
      refine .intro (fun f hf x' hx' => ?_) (fun f hf hrequired => ?_) fun _ m hm => ?_
      · have hkey := Json.mem_keys_of_lookup hx'
        rw [hkeys] at hkey
        obtain ⟨x, hx⟩ := Json.exists_lookup (List.mem_filter.mp hkey).1
        exact (hvalues f hf x x' hx hx').conforms w (present f hf x hx)
      · obtain ⟨x, hx⟩ := required f hf hrequired
        apply Json.exists_lookup
        rw [hkeys]
        exact List.mem_filter.mpr
          ⟨Json.mem_keys_of_lookup hx, Field.declares_iff.mpr ⟨f, hf, rfl⟩⟩
      · have hkey := List.mem_map_of_mem (f := Prod.fst) hm
        rw [hkeys] at hkey
        exact Field.declares_iff.mp (List.mem_filter.mp hkey).2
end

private theorem eq_of_zip {α β : Type} {xs : List α} {ys zs : List β}
    (hys : xs.length = ys.length) (hzs : xs.length = zs.length)
    (h : ∀ x ∈ xs, ∀ y z, (x, y) ∈ xs.zip ys → (x, z) ∈ xs.zip zs → y = z) : ys = zs := by
  apply List.ext_getElem (hys.symm.trans hzs)
  intro i hy hz
  have hx : i < xs.length := hys ▸ hy
  have mem {ws : List β} (hw : i < ws.length) : (xs[i], ws[i]) ∈ xs.zip ws :=
    List.mem_iff_getElem.mpr ⟨i, by simp [hx, hw], List.getElem_zip⟩
  exact h xs[i] (List.getElem_mem hx) _ _ (mem hy) (mem hz)

mutual
/-- A value in which no object has a key twice is pruned in one way. -/
theorem Prunes.unique (w : s.WellFormed) {t : TypeRef} {v v₁ v₂ : Json} :
    Prunes s t v v₁ → Prunes s t v v₂ → v.DistinctKeys → v₁ = v₂
  | .primitive, h₂, _ => by
      cases h₂ with
      | primitive => rfl
      | defined hd _ => cases hd
  | .sequence hlength₁ h₁, h₂, hkeys => by
      cases h₂ with
      | sequence hlength₂ h₂ =>
        refine congrArg Json.array (eq_of_zip hlength₁ hlength₂ fun x hx y z hy hz => ?_)
        exact (h₁ _ hy).unique w (h₂ _ hz) (hkeys.of_part (Json.part_of_mem_items hx))
      | defined hd _ => cases hd
  | .map hlength₁ hsame₁ h₁, h₂, hkeys => by
      cases h₂ with
      | map hlength₂ hsame₂ h₂ =>
        -- Keys stay, so two pruned members agree if their values do.
        refine congrArg Json.object (eq_of_zip hlength₁ hlength₂ fun m hm y z hy hz => ?_)
        exact Prod.ext ((hsame₁ _ hy).symm.trans (hsame₂ _ hz))
          ((h₁ _ hy).unique w (h₂ _ hz) (hkeys.of_part (Json.part_of_mem_members hm)))
      | defined hd _ => cases hd
  | @Prunes.tuple _ elements items _ hlength hlength₁ h₁, h₂, hkeys => by
      cases h₂ with
      | tuple _ hlength₂ h₂ =>
        have hzip : (elements.zip items).length = items.length := by simp [hlength]
        refine congrArg Json.array
          (eq_of_zip (hzip.trans hlength₁) (hzip.trans hlength₂) fun p hp y z hy hz => ?_)
        exact (h₁ _ hy).unique w (h₂ _ hz)
          (hkeys.of_part (Json.part_of_mem_items (List.of_mem_zip hp).2))
      | defined hd _ => cases hd
  | .null, h₂, _ => by
      cases h₂ with
      | null => rfl
      | nullable hv _ => exact absurd rfl hv
      | defined hd _ => cases hd
  | .nullable hv h₁, h₂, hkeys => by
      cases h₂ with
      | null => exact absurd rfl hv
      | nullable _ h₂ => exact h₁.unique w h₂ hkeys
      | defined hd _ => cases hd
  | .defined hd h₁, h₂, hkeys => by
      cases h₂ with
      | defined hd' h₂ =>
        obtain rfl := Option.some.inj (hd.symm.trans hd')
        exact h₁.unique w (w.distinct hd) h₂ hkeys
      | _ => cases hd

theorem PrunesAs.unique (w : s.WellFormed) {d : Definition} (hdistinct : d.Distinct)
    {v v₁ v₂ : Json} : PrunesAs s d v v₁ → PrunesAs s d v v₂ → v.DistinctKeys → v₁ = v₂
  | .struct h₁, .struct h₂, hkeys => congrArg Json.object (h₁.unique w h₂ hkeys)
  | .union hvariant₁ htag₁ hpayload₁ hkeys₁ htag₁' hpayload₁' h₁,
      .union hvariant₂ htag₂ hpayload₂ hkeys₂ htag₂' hpayload₂' h₂, hkeys => by
      have hsame := Json.string.inj (Option.some.inj (htag₁.symm.trans htag₂))
      obtain rfl := hdistinct.variant_eq hvariant₁ hvariant₂ hsame
      obtain rfl := Json.object.inj (Option.some.inj (hpayload₁.symm.trans hpayload₂))
      obtain rfl := h₁.unique w h₂ (hkeys.of_part (Json.part_of_lookup hpayload₁))
      refine congrArg Json.object (Json.ext_of_keys (hkeys₁.trans hkeys₂.symm) ?_ ?_)
      · rw [hkeys₁]
        exact (hkeys _ .self).filter _
      · intro k x x' hx hx'
        have hkey := Json.mem_keys_of_lookup hx
        rw [hkeys₁] at hkey
        have hdeclared : k = tagKey ∨ k = payloadKey := by
          simpa [Union.declares] using (List.mem_filter.mp hkey).2
        rcases hdeclared with rfl | rfl
        · exact Option.some.inj (hx.symm.trans (htag₁'.trans (htag₂'.symm.trans hx')))
        · exact Option.some.inj (hx.symm.trans (hpayload₁'.trans (hpayload₂'.symm.trans hx')))
  | .enum, .enum, _ => rfl
  | .alias h₁, .alias h₂, hkeys => h₁.unique w h₂ hkeys

theorem PrunesFields.unique (w : s.WellFormed) {fields : List Field}
    {members members₁ members₂ : List (String × Json)} : PrunesFields s fields members members₁ →
      PrunesFields s fields members members₂ → (Json.object members).DistinctKeys →
      members₁ = members₂
  | .intro hkeys₁ h₁, .intro hkeys₂ h₂, hkeys => by
      refine Json.ext_of_keys (hkeys₁.trans hkeys₂.symm) ?_ fun k x₁ x₂ hx₁ hx₂ => ?_
      · rw [hkeys₁]
        exact (hkeys _ .self).filter _
      · have hkey := Json.mem_keys_of_lookup hx₁
        rw [hkeys₁] at hkey
        obtain ⟨hmem, hdeclared⟩ := List.mem_filter.mp hkey
        obtain ⟨f, hf, rfl⟩ := Field.declares_iff.mp hdeclared
        obtain ⟨x, hx⟩ := Json.exists_lookup hmem
        exact (h₁ f hf x x₁ hx hx₁).unique w (h₂ f hf x x₂ hx hx₂)
          (hkeys.of_part (Json.part_of_lookup hx))
end

end SchemaGuard
