import Mathlib.Data.List.Basic
import SchemaGuard.Resolution.Resolve

/-!
What resolution judges, one thing at a time. An occurrence is a name or a reference node at its
place in a schema, with what it is judged by: the parameters around a reference, or the names that
stand before a name in its list. Each occurrence breaks its rule or keeps it whatever the others do,
and the errors of names and bodies are those of the occurrences that break their rule, one for each,
in the order in which the occurrences stand.
-/

set_option autoImplicit false
set_option relaxedAutoImplicit false

namespace SchemaGuard

def withEarlier {α : Type} : List α → List (List α × α)
  | [] => []
  | x :: items => ([], x) :: (withEarlier items).map fun p => (x :: p.1, p.2)

private theorem mem_withEarlier {α : Type} {items earlier : List α} {x : α} :
    (earlier, x) ∈ withEarlier items ↔ ∃ later, items = earlier ++ x :: later := by
  induction items generalizing earlier with
  | nil => simp [withEarlier]
  | cons y items ih =>
    simp only [withEarlier, List.mem_cons, Prod.mk.injEq, List.mem_map, Prod.exists]
    constructor
    · rintro (⟨rfl, rfl⟩ | ⟨before, z, hz, rfl, rfl⟩)
      · exact ⟨items, rfl⟩
      · obtain ⟨later, hlater⟩ := ih.mp hz
        exact ⟨later, by rw [hlater]; rfl⟩
    · rintro ⟨later, hlater⟩
      cases earlier with
      | nil =>
        have hxy := List.cons.inj hlater
        exact Or.inl ⟨rfl, hxy.1.symm⟩
      | cons z before =>
        obtain ⟨rfl, hrest⟩ := List.cons.inj hlater
        exact Or.inr ⟨before, x, ih.mpr ⟨later, hrest⟩, rfl, rfl⟩

theorem exists_mem_withEarlier {α : Type} {items : List α} {x : α} :
    (∃ earlier, (earlier, x) ∈ withEarlier items) ↔ x ∈ items := by
  simp only [mem_withEarlier]
  exact List.mem_iff_append.symm

theorem nodup_map_iff_withEarlier {α : Type} {items : List α} {name : α → String} :
    (items.map name).Nodup ↔ ∀ p ∈ withEarlier items, name p.2 ∉ p.1.map name := by
  induction items with
  | nil => simp [withEarlier]
  | cons x items ih =>
    rw [List.map_cons, List.nodup_cons, ih]
    constructor
    · rintro ⟨hx, h⟩ p hp
      rcases List.mem_cons.mp hp with rfl | hp
      · exact List.not_mem_nil
      · obtain ⟨q, hq, rfl⟩ := List.mem_map.mp hp
        intro hmem
        rcases List.mem_cons.mp hmem with heq | hmem
        · exact hx (heq ▸ List.mem_map_of_mem (exists_mem_withEarlier.mp ⟨q.1, hq⟩))
        · exact h q hq hmem
    · intro h
      constructor
      · intro hx
        obtain ⟨y, hy, heq⟩ := List.mem_map.mp hx
        obtain ⟨before, hmem⟩ := exists_mem_withEarlier.mpr hy
        have hnot := h (x :: before, y) (List.mem_cons_of_mem _ (List.mem_map_of_mem hmem))
        exact hnot (heq ▸ List.mem_cons_self)
      · intro p hp hmem
        exact h (x :: p.1, p.2) (List.mem_cons_of_mem _ (List.mem_map_of_mem hp))
          (List.mem_cons_of_mem _ hmem)

theorem nodup_iff_withEarlier {names : List String} :
    names.Nodup ↔ ∀ p ∈ withEarlier names, p.2 ∉ p.1 := by
  have h : (names.map id).Nodup ↔ ∀ p ∈ withEarlier names, id p.2 ∉ p.1.map id :=
    nodup_map_iff_withEarlier
  simpa using h

private theorem remembering_eq_flatMap {α : Type} (pass : List α → List String → List SchemaError)
    (name : α → String) (step : List String → α → List SchemaError)
    (nil : ∀ met, pass [] met = [])
    (cons : ∀ x rest met, pass (x :: rest) met = step met x ++ pass rest (name x :: met))
    (same : ∀ met met' x, (∀ n, n ∈ met ↔ n ∈ met') → step met x = step met' x)
    (items : List α) :
    pass items [] = (withEarlier items).flatMap fun p => step (p.1.map name) p.2 := by
  -- What is remembered lists the names met in reverse, so only membership is compared.
  suffices general : ∀ (done : List α) (met : List String), (∀ n, n ∈ met ↔ n ∈ done.map name) →
      pass items met = (withEarlier items).flatMap fun p => step ((done ++ p.1).map name) p.2 by
    simpa using general [] [] (by simp)
  induction items with
  | nil =>
    intro done met _
    simp [nil, withEarlier]
  | cons x items ih =>
    intro done met hmet
    have hnext : ∀ n, n ∈ name x :: met ↔ n ∈ (done ++ [x]).map name := by
      intro n
      rw [List.map_append, List.mem_cons, List.mem_append, hmet n]
      simp [or_comm]
    rw [cons, ih (done ++ [x]) (name x :: met) hnext, same met (done.map name) x hmet]
    simp [withEarlier, List.flatMap_map]

mutual
/-- A reference and all references inside it, each before its arguments. -/
def TypeRef.nodes : TypeRef → List TypeRef
  | .primitive p => [.primitive p]
  | .parameter name => [.parameter name]
  | .named name => [.named name]
  | .generic name args => .generic name args :: TypeRef.nodesOfAll args
  | .sequence inner => .sequence inner :: inner.nodes
  | .map inner => .map inner :: inner.nodes
  | .tuple elements => .tuple elements :: TypeRef.nodesOfAll elements
  | .nullable inner => .nullable inner :: inner.nodes

def TypeRef.nodesOfAll : List TypeRef → List TypeRef
  | [] => []
  | t :: ts => t.nodes ++ TypeRef.nodesOfAll ts
end

/-- A list of names that are to be distinct. -/
inductive Listing where
  | types
  | params (type : String)
  | fields (owner : Site)
  | tags (union : String)
  | members (enum : String)

def Listing.repeated : Listing → String → SchemaError
  | .types, name => .duplicateType name
  | .params type, name => .duplicateParameter type name
  | .fields owner, name => .duplicateField owner name
  | .tags union, name => .duplicateTag union name
  | .members enum, name => .duplicateMember enum name

/-- Something that is judged on its own. -/
inductive Occurrence where
  | name (role : NameRole) (name : String)
  /-- A name in a list, `earlier` being the names before it. -/
  | entry (listing : Listing) (earlier : List String) (name : String)
  /-- A reference node at a site, where the parameters of `scope` are declared. -/
  | node (site : Site) (scope : List String) (node : TypeRef)

namespace Occurrence

def ofParams (type : String) (params : List String) : List Occurrence :=
  (withEarlier params).flatMap fun p =>
    [.name .parameter p.2, .entry (.params type) p.1 p.2]

def ofReference (site : Site) (scope : List String) (t : TypeRef) : List Occurrence :=
  t.nodes.map (.node site scope)

def ofFields (owner : Site) (scope : List String) (fields : List Field) : List Occurrence :=
  (withEarlier fields).flatMap fun p =>
    .entry (.fields owner) (p.1.map Field.name) p.2.name
      :: ofReference (owner.atField p.2.name) scope p.2.type

def ofVariants (union : String) (variants : List Variant) : List Occurrence :=
  (withEarlier variants).flatMap fun p =>
    .entry (.tags union) (p.1.map Variant.tag) p.2.tag
      :: ofFields { type := union, variant := some p.2.tag } [] p.2.fields

def ofMembers (enum : String) (members : List String) : List Occurrence :=
  (withEarlier members).map fun p => .entry (.members enum) p.1 p.2

def ofBody : Definition → List Occurrence
  | .struct d => ofParams d.name d.params ++ ofFields { type := d.name } d.params d.fields
  | .alias d => ofParams d.name d.params ++ ofReference { type := d.name } d.params d.target
  | .enum d => ofMembers d.name d.members
  | .union d => ofVariants d.name d.variants

def ofNames (types : List Definition) : List Occurrence :=
  (withEarlier types).flatMap fun p =>
    [.name .type p.2.name, .entry .types (p.1.map Definition.name) p.2.name]

end Occurrence

namespace Schema

/-- Everything that is judged: first the names of all definitions, then their bodies. -/
def occurrences (s : Schema) : List Occurrence :=
  Occurrence.ofNames s.types ++ s.types.flatMap Occurrence.ofBody

/-- How naming `name` with `found` arguments breaks the rule of references, if it does: a name of
`scope` stands for no type, and a type takes as many arguments as its first definition has
parameters. -/
def targetViolation? (s : Schema) (site : Site) (scope : List String) (name : String)
    (found : Nat) : Option SchemaError :=
  if name ∈ scope then some (.invalidParameterUse site name)
  else
    match s.find? name with
    | none => some (.unresolvedReference site name)
    | some d =>
      if d.params.length = found then none
      else some (.arityMismatch site name d.params.length found)

def violation? (s : Schema) : Occurrence → Option SchemaError
  | .name role name =>
    if Identifier.isUsable name then none else some (.invalidIdentifier name role)
  | .entry listing earlier name => if name ∈ earlier then some (listing.repeated name) else none
  | .node site scope (.parameter name) =>
    if name ∈ scope then none else some (.unboundParameter site name)
  | .node site scope (.named name) => s.targetViolation? site scope name 0
  | .node site scope (.generic name args) => s.targetViolation? site scope name args.length
  | .node _ _ _ => none

/-- The errors of all occurrences that break their rule. -/
def violations (s : Schema) : List SchemaError := s.occurrences.filterMap s.violation?

/-- The errors of all aliases that are cyclic. -/
def cyclicAliases (s : Schema) : List SchemaError :=
  s.types.filterMap fun d =>
    match d with
    | .alias a => if s.isCyclic a then some (.cyclicAlias a.name) else none
    | _ => none

variable (s : Schema)

private theorem targetErrors_eq (site : Site) (scope : List String) (name : String) (found : Nat) :
    s.targetErrors site scope name found = (s.targetViolation? site scope name found).toList := by
  simp only [targetErrors, targetViolation?, arity?]
  cases s.find? name with
  | none => split <;> rfl
  | some d =>
    simp only [Option.map_some]
    split
    · rfl
    · split <;> rfl

mutual
theorem referenceErrors_eq (site : Site) (scope : List String) : ∀ t : TypeRef,
    s.referenceErrors site scope t =
      (Occurrence.ofReference site scope t).filterMap s.violation?
  | .primitive _ => rfl
  | .parameter name => by
    simp only [referenceErrors, Occurrence.ofReference, TypeRef.nodes, List.map_cons, List.map_nil,
      List.filterMap_cons, List.filterMap_nil, violation?]
    split <;> rfl
  | .named name => by
    simp only [referenceErrors, Occurrence.ofReference, TypeRef.nodes, List.map_cons, List.map_nil,
      List.filterMap_cons, List.filterMap_nil, violation?, targetErrors_eq]
    cases s.targetViolation? site scope name 0 <;> rfl
  | .generic name args => by
    have hargs := referencesErrors_eq site scope args
    simp only [referenceErrors, Occurrence.ofReference, TypeRef.nodes, List.map_cons,
      List.filterMap_cons, violation?, targetErrors_eq, hargs]
    cases s.targetViolation? site scope name args.length <;> rfl
  | .sequence inner => referenceErrors_eq site scope inner
  | .map inner => referenceErrors_eq site scope inner
  | .tuple elements => referencesErrors_eq site scope elements
  | .nullable inner => referenceErrors_eq site scope inner

private theorem referencesErrors_eq (site : Site) (scope : List String) : ∀ ts : List TypeRef,
    s.referencesErrors site scope ts =
      ((TypeRef.nodesOfAll ts).map (Occurrence.node site scope)).filterMap s.violation?
  | [] => rfl
  | t :: ts => by
    have hhead := referenceErrors_eq site scope t
    have htail := referencesErrors_eq site scope ts
    simp only [Occurrence.ofReference] at hhead
    simp only [referencesErrors, TypeRef.nodesOfAll, List.map_append, List.filterMap_append, hhead,
      htail]
end

private theorem if_nil_eq_toList {p : Prop} [Decidable p] (e : SchemaError) :
    (if p then [e] else []) = (if p then some e else none).toList := by
  split <;> rfl

private theorem if_nil_else_eq_toList {p : Prop} [Decidable p] (e : SchemaError) :
    (if p then [] else [e]) = (if p then none else some e).toList := by
  split <;> rfl

private theorem filterMap_cons_eq (o : Occurrence) (rest : List Occurrence) :
    (o :: rest).filterMap s.violation? =
      (s.violation? o).toList ++ rest.filterMap s.violation? := by
  cases h : s.violation? o with
  | none => simp [h]
  | some e => simp [h]

private theorem nameErrors_eq (types : List Definition) :
    nameErrors types [] = (Occurrence.ofNames types).filterMap s.violation? := by
  rw [remembering_eq_flatMap nameErrors Definition.name
    (fun met d =>
      (if Identifier.isUsable d.name then [] else [.invalidIdentifier d.name .type])
        ++ (if d.name ∈ met then [.duplicateType d.name] else []))
    (fun _ => rfl) (fun _ _ _ => rfl) (fun met met' d h => by simp only [h])]
  simp only [Occurrence.ofNames, List.filterMap_flatMap, filterMap_cons_eq, List.filterMap_nil,
    violation?, Listing.repeated, if_nil_eq_toList, if_nil_else_eq_toList, List.append_nil]

private theorem paramErrors_eq (type : String) (params : List String) :
    paramErrors type params [] = (Occurrence.ofParams type params).filterMap s.violation? := by
  rw [remembering_eq_flatMap (paramErrors type) id
    (fun met p =>
      (if Identifier.isUsable p then [] else [.invalidIdentifier p .parameter])
        ++ (if p ∈ met then [.duplicateParameter type p] else []))
    (fun _ => rfl) (fun _ _ _ => rfl) (fun met met' p h => by simp only [h])]
  simp only [Occurrence.ofParams, List.filterMap_flatMap, filterMap_cons_eq, List.filterMap_nil,
    violation?, Listing.repeated, if_nil_eq_toList, if_nil_else_eq_toList, List.append_nil,
    List.map_id]

private theorem fieldErrors_eq (owner : Site) (scope : List String) (fields : List Field) :
    s.fieldErrors owner scope fields [] =
      (Occurrence.ofFields owner scope fields).filterMap s.violation? := by
  rw [remembering_eq_flatMap (s.fieldErrors owner scope) Field.name
    (fun met f =>
      (if f.name ∈ met then [.duplicateField owner f.name] else [])
        ++ s.referenceErrors (owner.atField f.name) scope f.type)
    (fun _ => rfl) (fun _ _ _ => rfl) (fun met met' f h => by simp only [h])]
  simp only [Occurrence.ofFields, List.filterMap_flatMap, filterMap_cons_eq, violation?,
    Listing.repeated, if_nil_eq_toList, referenceErrors_eq]

private theorem variantErrors_eq (union : String) (variants : List Variant) :
    s.variantErrors union variants [] =
      (Occurrence.ofVariants union variants).filterMap s.violation? := by
  rw [remembering_eq_flatMap (s.variantErrors union) Variant.tag
    (fun met v =>
      (if v.tag ∈ met then [.duplicateTag union v.tag] else [])
        ++ s.fieldErrors { type := union, variant := some v.tag } [] v.fields [])
    (fun _ => rfl) (fun _ _ _ => rfl) (fun met met' v h => by simp only [h])]
  simp only [Occurrence.ofVariants, List.filterMap_flatMap, filterMap_cons_eq, violation?,
    Listing.repeated, if_nil_eq_toList, fieldErrors_eq]

private theorem memberErrors_eq (enum : String) (members : List String) :
    memberErrors enum members [] =
      (Occurrence.ofMembers enum members).filterMap s.violation? := by
  rw [remembering_eq_flatMap (memberErrors enum) id
    (fun met m => if m ∈ met then [.duplicateMember enum m] else [])
    (fun _ => rfl) (fun _ _ _ => rfl) (fun met met' m h => by simp only [h])]
  simp only [Occurrence.ofMembers, List.filterMap_map, Function.comp_def, violation?,
    Listing.repeated, if_nil_eq_toList, List.map_id]
  exact (List.filterMap_eq_flatMap_toList _ _).symm

theorem bodyErrors_eq (d : Definition) :
    s.bodyErrors d = (Occurrence.ofBody d).filterMap s.violation? := by
  cases d with
  | struct d =>
    simp only [bodyErrors, Occurrence.ofBody, List.filterMap_append, paramErrors_eq s,
      fieldErrors_eq]
  | «alias» d =>
    simp only [bodyErrors, Occurrence.ofBody, List.filterMap_append, paramErrors_eq s,
      referenceErrors_eq]
  | enum d => exact s.memberErrors_eq d.name d.members
  | union d => exact s.variantErrors_eq d.name d.variants

private theorem nameErrors_append_bodyErrors_eq :
    nameErrors s.types [] ++ s.types.flatMap s.bodyErrors = s.violations := by
  rw [violations, occurrences, List.filterMap_append, List.filterMap_flatMap, ← nameErrors_eq,
    funext s.bodyErrors_eq]

private theorem cycleErrors_eq : s.types.flatMap s.cycleErrors = s.cyclicAliases := by
  rw [cyclicAliases, List.filterMap_eq_flatMap_toList]
  congr 1
  funext d
  cases d with
  | «alias» a => exact if_nil_eq_toList _
  | struct _ => rfl
  | union _ => rfl
  | enum _ => rfl

/-- The errors of a schema are its violations, or if there are none its cyclic aliases. -/
theorem errors_eq : s.errors = if s.violations = [] then s.cyclicAliases else s.violations := by
  simp only [errors, nameErrors_append_bodyErrors_eq, cycleErrors_eq, List.isEmpty_iff]

end Schema

end SchemaGuard
