import SchemaGuard.Proofs.Resolution.Occurrences

/-!
Well-formed schemas: names are usable and distinct, references are legal, and no alias is cyclic.
Resolution accepts exactly the well-formed schemas, and reports of any other schema one error for
each occurrence that breaks its rule.
-/

set_option autoImplicit false
set_option relaxedAutoImplicit false

namespace SchemaGuard

namespace Definition

def fieldLists : Definition → List (List Field)
  | .struct d => [d.fields]
  | .union d => d.variants.map Variant.fields
  | .enum _ | .alias _ => []

def references : Definition → List TypeRef
  | .alias d => [d.target]
  | d => d.fieldLists.flatten.map Field.type

end Definition

namespace Schema

/-- `name` is a type with `found` parameters, and not one of the parameters around it. -/
def Names (s : Schema) (scope : List String) (name : String) (found : Nat) : Prop :=
  name ∉ scope ∧ ∃ d ∈ s.types, d.name = name ∧ d.params.length = found

/-- The node is a declared parameter, or is applied to as many arguments as its type takes; what
stands inside it is another node. -/
def Legal (s : Schema) (scope : List String) : TypeRef → Prop
  | .parameter name => name ∈ scope
  | .named name => s.Names scope name 0
  | .generic name args => s.Names scope name args.length
  | .primitive _ | .sequence _ | .map _ | .tuple _ | .nullable _ => True

/-- What resolution demands of a schema. -/
structure WellFormed (s : Schema) : Prop where
  typeNames : ∀ d ∈ s.types, Identifier.isUsable d.name
  paramNames : ∀ d ∈ s.types, ∀ p ∈ d.params, Identifier.isUsable p
  types_nodup : (s.types.map Definition.name).Nodup
  params_nodup : ∀ d ∈ s.types, d.params.Nodup
  fields_nodup : ∀ d ∈ s.types, ∀ fields ∈ d.fieldLists, (fields.map Field.name).Nodup
  tags_nodup : ∀ u : Union, .union u ∈ s.types → (u.variants.map Variant.tag).Nodup
  members_nodup : ∀ e : Enum, .enum e ∈ s.types → e.members.Nodup
  references : ∀ d ∈ s.types, ∀ t ∈ d.references, ∀ node ∈ t.nodes, s.Legal d.params node
  aliases : ∀ a : Alias, .alias a ∈ s.types → s.isCyclic a = false

variable {s : Schema}

theorem find?_key_eq_some_iff {α : Type} {key : α → String} {items : List α}
    (distinct : (items.map key).Nodup) {k : String} {x : α} :
    (items.find? fun y => key y == k) = some x ↔ x ∈ items ∧ key x = k := by
  constructor
  · intro h
    exact ⟨List.mem_of_find?_eq_some h, by simpa using List.find?_some h⟩
  · rintro ⟨hmem, rfl⟩
    obtain ⟨before, after, heq⟩ := List.append_of_mem hmem
    rw [heq, List.map_append, List.map_cons] at distinct
    rw [List.find?_eq_some_iff_append]
    refine ⟨by simp, before, after, heq, fun y hy => ?_⟩
    have hne := (List.nodup_append.mp distinct).2.2 (key y) (List.mem_map_of_mem hy) (key x)
      (by simp)
    simpa using hne

theorem find?_eq_some_iff (distinct : (s.types.map Definition.name).Nodup) {name : String}
    {d : Definition} : s.find? name = some d ↔ d ∈ s.types ∧ d.name = name :=
  find?_key_eq_some_iff distinct

private def Kept (s : Schema) (occurrences : List Occurrence) : Prop :=
  ∀ o ∈ occurrences, s.violation? o = none

private theorem kept_append {first second : List Occurrence} :
    Kept s (first ++ second) ↔ Kept s first ∧ Kept s second := List.forall_mem_append

private theorem kept_cons {o : Occurrence} {rest : List Occurrence} :
    Kept s (o :: rest) ↔ s.violation? o = none ∧ Kept s rest := List.forall_mem_cons

private theorem kept_nil : Kept s [] := by simp [Kept]

private theorem kept_withEarlier {α : Type} {items : List α}
    {f : List α × α → List Occurrence} :
    Kept s ((withEarlier items).flatMap f) ↔ ∀ p ∈ withEarlier items, Kept s (f p) := by
  simp only [Kept, List.mem_flatMap]
  constructor
  · intro h p hp o ho
    exact h o ⟨p, hp, ho⟩
  · rintro h o ⟨p, hp, ho⟩
    exact h p hp o ho

private theorem forall_withEarlier {α : Type} (items : List α) (P : α → Prop) :
    (∀ p ∈ withEarlier items, P p.2) ↔ ∀ x ∈ items, P x := by
  constructor
  · intro h x hx
    obtain ⟨earlier, hp⟩ := exists_mem_withEarlier.mpr hx
    exact h (earlier, x) hp
  · intro h p hp
    exact h p.2 (exists_mem_withEarlier.mp ⟨p.1, hp⟩)

private theorem violation?_name {role : NameRole} {name : String} :
    s.violation? (.name role name) = none ↔ Identifier.isUsable name := by
  simp [violation?]

private theorem violation?_entry {listing : Listing} {earlier : List String} {name : String} :
    s.violation? (.entry listing earlier name) = none ↔ name ∉ earlier := by
  simp [violation?]

private theorem targetViolation?_eq_none (distinct : (s.types.map Definition.name).Nodup)
    {site : Site} {scope : List String} {name : String} {found : Nat} :
    s.targetViolation? site scope name found = none ↔ s.Names scope name found := by
  unfold targetViolation? Names
  split
  · next hscope => simp [hscope]
  · next hscope =>
    cases hfind : s.find? name with
    | none =>
      have hnone : ¬ ∃ d ∈ s.types, d.name = name ∧ d.params.length = found := by
        rintro ⟨d, hd, hname, _⟩
        have hsome := (find?_eq_some_iff distinct).mpr ⟨hd, hname⟩
        simp [hfind] at hsome
      simp [hnone]
    | some d =>
      obtain ⟨hd, hname⟩ := (find?_eq_some_iff distinct).mp hfind
      have hiff : (∃ e ∈ s.types, e.name = name ∧ e.params.length = found) ↔
          d.params.length = found := by
        constructor
        · rintro ⟨e, he, hename, hlength⟩
          have hsome := (find?_eq_some_iff distinct).mpr ⟨he, hename⟩
          rw [hfind] at hsome
          exact Option.some.inj hsome ▸ hlength
        · intro hlength
          exact ⟨d, hd, hname, hlength⟩
      simp only [hiff, hscope, not_false_eq_true, true_and]
      split <;> simp_all

private theorem violation?_node (distinct : (s.types.map Definition.name).Nodup)
    {site : Site} {scope : List String} {t : TypeRef} :
    s.violation? (.node site scope t) = none ↔ s.Legal scope t := by
  cases t with
  | parameter name => simp [violation?, Legal]
  | named name => exact targetViolation?_eq_none distinct
  | generic name args => exact targetViolation?_eq_none distinct
  | _ => simp [violation?, Legal]

private theorem kept_ofParams {type : String} {params : List String} :
    Kept s (Occurrence.ofParams type params) ↔
      (∀ p ∈ params, Identifier.isUsable p) ∧ params.Nodup := by
  have husable := forall_withEarlier params fun p => Identifier.isUsable p = true
  simp only [Occurrence.ofParams, kept_withEarlier, kept_cons, violation?_name, violation?_entry,
    kept_nil, and_true, forall_and, husable, nodup_iff_withEarlier]

private theorem kept_ofReference (distinct : (s.types.map Definition.name).Nodup) {site : Site}
    {scope : List String} {t : TypeRef} :
    Kept s (Occurrence.ofReference site scope t) ↔ ∀ node ∈ t.nodes, s.Legal scope node := by
  simp only [Kept, Occurrence.ofReference, List.forall_mem_map, violation?_node distinct]

theorem referenceErrors_eq_nil_iff (distinct : (s.types.map Definition.name).Nodup) {site : Site}
    {scope : List String} {t : TypeRef} :
    s.referenceErrors site scope t = [] ↔ ∀ node ∈ t.nodes, s.Legal scope node := by
  rw [referenceErrors_eq, List.filterMap_eq_nil_iff]
  exact kept_ofReference distinct

private theorem kept_ofFields (distinct : (s.types.map Definition.name).Nodup) {owner : Site}
    {scope : List String} {fields : List Field} :
    Kept s (Occurrence.ofFields owner scope fields) ↔ (fields.map Field.name).Nodup ∧
      ∀ f ∈ fields, ∀ node ∈ f.type.nodes, s.Legal scope node := by
  have hlegal := forall_withEarlier fields fun f => ∀ node ∈ f.type.nodes, s.Legal scope node
  simp only [Occurrence.ofFields, kept_withEarlier, kept_cons, violation?_entry,
    kept_ofReference distinct, forall_and, nodup_map_iff_withEarlier, hlegal]

private theorem kept_ofVariants (distinct : (s.types.map Definition.name).Nodup) {union : String}
    {variants : List Variant} :
    Kept s (Occurrence.ofVariants union variants) ↔ (variants.map Variant.tag).Nodup ∧
      ∀ v ∈ variants, (v.fields.map Field.name).Nodup ∧
        ∀ f ∈ v.fields, ∀ node ∈ f.type.nodes, s.Legal [] node := by
  have hfields := forall_withEarlier variants fun v => (v.fields.map Field.name).Nodup ∧
    ∀ f ∈ v.fields, ∀ node ∈ f.type.nodes, s.Legal [] node
  simp only [Occurrence.ofVariants, kept_withEarlier, kept_cons, violation?_entry,
    kept_ofFields distinct, forall_and, nodup_map_iff_withEarlier] at hfields ⊢
  rw [hfields]

private theorem kept_ofMembers {enum : String} {members : List String} :
    Kept s (Occurrence.ofMembers enum members) ↔ members.Nodup := by
  simp only [Kept, Occurrence.ofMembers, List.forall_mem_map, violation?_entry,
    nodup_iff_withEarlier]

private theorem kept_ofBody (distinct : (s.types.map Definition.name).Nodup) {d : Definition} :
    Kept s (Occurrence.ofBody d) ↔
      ((∀ p ∈ d.params, Identifier.isUsable p) ∧ d.params.Nodup) ∧
      (∀ fields ∈ d.fieldLists, (fields.map Field.name).Nodup) ∧
      (∀ u : Union, d = .union u → (u.variants.map Variant.tag).Nodup) ∧
      (∀ e : Enum, d = .enum e → e.members.Nodup) ∧
      ∀ t ∈ d.references, ∀ node ∈ t.nodes, s.Legal d.params node := by
  cases d with
  | struct d =>
    simp [Occurrence.ofBody, kept_append, kept_ofParams, kept_ofFields distinct, Definition.params,
      Definition.fieldLists, Definition.references]
  | «alias» d =>
    simp [Occurrence.ofBody, kept_append, kept_ofParams, kept_ofReference distinct,
      Definition.params, Definition.fieldLists, Definition.references]
  | enum d =>
    simp [Occurrence.ofBody, kept_ofMembers, Definition.params, Definition.fieldLists,
      Definition.references]
  | union d =>
    have hreferences : (∀ t ∈ (Definition.union d).references, ∀ node ∈ t.nodes, s.Legal [] node) ↔
        ∀ v ∈ d.variants, ∀ f ∈ v.fields, ∀ node ∈ f.type.nodes, s.Legal [] node := by
      simp only [Definition.references, Definition.fieldLists, List.forall_mem_map,
        List.forall_mem_flatten]
    simp only [Definition.params, hreferences, Occurrence.ofBody, kept_ofVariants distinct,
      Definition.fieldLists, List.forall_mem_map, forall_and, Definition.union.injEq, forall_eq',
      reduceCtorEq, false_implies, implies_true, List.not_mem_nil, List.nodup_nil, true_and]
    exact and_left_comm

private theorem kept_ofNames {types : List Definition} :
    Kept s (Occurrence.ofNames types) ↔
      (∀ d ∈ types, Identifier.isUsable d.name) ∧ (types.map Definition.name).Nodup := by
  have husable := forall_withEarlier types fun d => Identifier.isUsable d.name = true
  simp only [Occurrence.ofNames, kept_withEarlier, kept_cons, violation?_name, violation?_entry,
    kept_nil, and_true, forall_and, husable, nodup_map_iff_withEarlier]

private theorem cyclicAliases_eq_nil :
    s.cyclicAliases = [] ↔ ∀ a : Alias, .alias a ∈ s.types → s.isCyclic a = false := by
  rw [cyclicAliases, List.filterMap_eq_nil_iff]
  constructor
  · intro h a ha
    simpa using h (.alias a) ha
  · intro h d hd
    cases d with
    | «alias» a => simp [h a hd]
    | _ => rfl

private theorem violations_eq_nil : s.violations = [] ↔
    Kept s (Occurrence.ofNames s.types) ∧ ∀ d ∈ s.types, Kept s (Occurrence.ofBody d) := by
  rw [violations, List.filterMap_eq_nil_iff]
  change Kept s s.occurrences ↔ _
  simp only [occurrences, kept_append, and_congr_right_iff]
  intro _
  simp only [Kept, List.mem_flatMap]
  constructor
  · intro h d hd o ho
    exact h o ⟨d, hd, ho⟩
  · rintro h o ⟨d, hd, ho⟩
    exact h d hd o ho

theorem legal_of_violations (h : s.violations = []) : (s.types.map Definition.name).Nodup ∧
    ∀ d ∈ s.types, ∀ t ∈ d.references, ∀ node ∈ t.nodes, s.Legal d.params node := by
  obtain ⟨hnames, hbodies⟩ := violations_eq_nil.mp h
  have hdistinct := (kept_ofNames.mp hnames).2
  exact ⟨hdistinct, fun d hd => ((kept_ofBody hdistinct).mp (hbodies d hd)).2.2.2.2⟩

theorem errors_eq_nil_iff : s.errors = [] ↔ s.WellFormed := by
  have hsplit : s.errors = [] ↔ s.violations = [] ∧ s.cyclicAliases = [] := by
    rw [errors_eq]
    split
    · next h => simp [h]
    · next h => simp [h]
  rw [hsplit, violations_eq_nil, cyclicAliases_eq_nil, kept_ofNames]
  constructor
  · rintro ⟨⟨⟨hnames, hdistinct⟩, hbodies⟩, haliases⟩
    have hbody := fun d hd => (kept_ofBody hdistinct).mp (hbodies d hd)
    exact {
      typeNames := hnames
      paramNames := fun d hd => (hbody d hd).1.1
      types_nodup := hdistinct
      params_nodup := fun d hd => (hbody d hd).1.2
      fields_nodup := fun d hd => (hbody d hd).2.1
      tags_nodup := fun u hu => (hbody _ hu).2.2.1 u rfl
      members_nodup := fun e he => (hbody _ he).2.2.2.1 e rfl
      references := fun d hd => (hbody d hd).2.2.2.2
      aliases := haliases }
  · intro h
    refine ⟨⟨⟨h.typeNames, h.types_nodup⟩, fun d hd => ?_⟩, h.aliases⟩
    rw [kept_ofBody h.types_nodup]
    refine ⟨⟨h.paramNames d hd, h.params_nodup d hd⟩, h.fields_nodup d hd, ?_, ?_,
      h.references d hd⟩
    · rintro u rfl
      exact h.tags_nodup u hd
    · rintro e rfl
      exact h.members_nodup e hd

end Schema

/-- The schema behind a resolved schema is well-formed. -/
theorem ResolvedSchema.wellFormed (r : ResolvedSchema) : r.schema.WellFormed :=
  Schema.errors_eq_nil_iff.mp r.noErrors

theorem Schema.exists_resolve_iff {s : Schema} : (∃ r, s.resolve = .ok r) ↔ s.WellFormed := by
  rw [← errors_eq_nil_iff]
  unfold resolve
  split
  · next h => simp [h]
  · next h => simp [h]

/-- Resolution accepts exactly the well-formed schemas, as they are. A schema that is not
well-formed is answered by one error for each occurrence that breaks its rule, in the order of the
occurrences, or if no occurrence does by one error for each cyclic alias, in declared order. -/
theorem resolve_iff_wellFormed (s : Schema) :
    ((∃ r, s.resolve = .ok r ∧ r.schema = s) ↔ s.WellFormed) ∧
      ∀ errors, s.resolve = .error errors ↔ ¬ s.WellFormed ∧
        errors = if s.violations = [] then s.cyclicAliases else s.violations := by
  rw [← Schema.errors_eq_nil_iff, ← Schema.errors_eq]
  unfold Schema.resolve
  split
  · next h => simp [h]
  · next h =>
    refine ⟨by simp [h], fun errors => ?_⟩
    simp [h, eq_comm]

end SchemaGuard
